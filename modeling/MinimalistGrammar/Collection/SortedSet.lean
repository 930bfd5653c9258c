/-! Finite sets as strictly increasing lists, so that equal sets are equal lists and a set is shown
in one order only. -/
namespace MinimalistGrammar

structure SortedSet (α : Type) [Ord α] where
  elements : List α
  ordered : elements.Pairwise fun a b => compare a b = .lt

namespace SortedSet
variable {α : Type} [Ord α]

/-- Put a value at its place in an increasing list that may hold it already. -/
def insertOrdered (a : α) : List α → List α
  | [] => [a]
  | b :: rest =>
    match compare a b with
    | .lt => a :: b :: rest
    | .eq => b :: rest
    | .gt => b :: insertOrdered a rest

theorem mem_of_mem_insertOrdered {a x : α} {s : List α} (h : x ∈ insertOrdered a s) :
    x = a ∨ x ∈ s := by
  induction s with
  | nil => exact .inl (by simpa [insertOrdered] using h)
  | cons b rest ih => grind [insertOrdered]

/-- The list holds a value that compares equal. -/
def Holds (s : List α) (a : α) : Prop := ∃ b ∈ s, compare a b = .eq

instance (s : List α) (a : α) : Decidable (Holds s a) :=
  inferInstanceAs (Decidable (∃ b ∈ s, compare a b = .eq))

@[simp] theorem not_holds_nil (a : α) : ¬Holds [] a := by simp [Holds]

@[simp] theorem holds_cons {a b : α} {s : List α} :
    Holds (b :: s) a ↔ compare a b = .eq ∨ Holds s a := by simp [Holds]

theorem holds_iff_mem [Std.LawfulEqOrd α] {s : List α} {a : α} : Holds s a ↔ a ∈ s := by
  simp [Holds]

theorem holds_insertOrdered [Std.TransOrd α] {a x : α} {s : List α} :
    Holds (insertOrdered a s) x ↔ compare x a = .eq ∨ Holds s x := by
  induction s with
  | nil => simp [insertOrdered]
  | cons b rest ih =>
    unfold insertOrdered
    split
    · simp
    · rename_i hab
      have : compare x a = .eq ↔ compare x b = .eq := by
        rw [Std.TransCmp.congr_right hab]
      simp [this]
    · simp [ih, or_left_comm]

theorem ordered_insertOrdered [Std.TransOrd α] (a : α) {s : List α}
    (h : s.Pairwise fun a b => compare a b = .lt) :
    (insertOrdered a s).Pairwise fun a b => compare a b = .lt := by
  induction s with
  | nil => simp [insertOrdered]
  | cons b rest ih =>
    have hb := List.pairwise_cons.mp h
    unfold insertOrdered
    split
    · rename_i hab
      refine List.pairwise_cons.mpr ⟨fun x hx => ?_, h⟩
      rcases List.mem_cons.mp hx with rfl | hx
      · exact hab
      · exact Std.TransCmp.lt_trans hab (hb.1 x hx)
    · exact h
    · rename_i hab
      refine List.pairwise_cons.mpr ⟨fun x hx => ?_, ih hb.2⟩
      rcases mem_of_mem_insertOrdered hx with rfl | hx
      · exact Std.OrientedCmp.lt_of_gt hab
      · exact hb.1 x hx

instance : EmptyCollection (SortedSet α) := ⟨⟨[], .nil⟩⟩

instance : Inhabited (SortedSet α) := ⟨∅⟩

/-- Membership of any value that compares equal to an element. -/
instance : Membership α (SortedSet α) := ⟨fun s a => Holds s.elements a⟩

instance (a : α) (s : SortedSet α) : Decidable (a ∈ s) :=
  inferInstanceAs (Decidable (Holds s.elements a))

theorem mem_elements [Std.LawfulEqOrd α] {s : SortedSet α} {a : α} : a ∈ s.elements ↔ a ∈ s :=
  holds_iff_mem.symm

instance [DecidableEq α] : DecidableEq (SortedSet α) := fun s t =>
  decidable_of_iff (s.elements = t.elements) (by cases s; cases t; simp)

variable [Std.TransOrd α]

/-- Of values that compare equal the earlier one stays. -/
def insert (s : SortedSet α) (a : α) : SortedSet α :=
  ⟨insertOrdered a s.elements, ordered_insertOrdered a s.ordered⟩

@[simp] theorem mem_insert {s : SortedSet α} {a x : α} :
    x ∈ s.insert a ↔ compare x a = .eq ∨ x ∈ s := holds_insertOrdered

def union (s t : SortedSet α) : SortedSet α := t.elements.foldl insert s

def ofList (values : List α) : SortedSet α := values.foldl insert ∅

def isDisjoint (s t : SortedSet α) : Bool := s.elements.all (· ∉ t)

def isSubset (s t : SortedSet α) : Bool := s.elements.all (· ∈ t)

end SortedSet
end MinimalistGrammar
