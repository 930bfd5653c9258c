/-! Finite maps as association lists with strictly increasing keys, so that equal maps are equal
lists. -/
namespace MinimalistGrammar

structure SortedMap (κ ν : Type) [Ord κ] where
  entries : List (κ × ν)
  ordered : entries.Pairwise fun a b => compare a.1 b.1 = .lt

namespace SortedMap
variable {κ ν : Type} [Ord κ]

/-- Put a value under its key in a list with increasing keys, in place of an older one. -/
def insertOrdered (k : κ) (v : ν) : List (κ × ν) → List (κ × ν)
  | [] => [(k, v)]
  | e :: rest =>
    match compare k e.1 with
    | .lt => (k, v) :: e :: rest
    | .eq => (k, v) :: rest
    | .gt => e :: insertOrdered k v rest

theorem mem_of_mem_insertOrdered {k : κ} {v : ν} {x : κ × ν} {s : List (κ × ν)}
    (h : x ∈ insertOrdered k v s) : x = (k, v) ∨ x ∈ s := by
  induction s with
  | nil => exact .inl (by simpa [insertOrdered] using h)
  | cons e rest ih => grind [insertOrdered]

theorem ordered_insertOrdered [Std.TransOrd κ] (k : κ) (v : ν) {s : List (κ × ν)}
    (h : s.Pairwise fun a b => compare a.1 b.1 = .lt) :
    (insertOrdered k v s).Pairwise fun a b => compare a.1 b.1 = .lt := by
  induction s with
  | nil => simp [insertOrdered]
  | cons e rest ih =>
    have he := List.pairwise_cons.mp h
    unfold insertOrdered
    split
    · rename_i hke
      refine List.pairwise_cons.mpr ⟨fun x hx => ?_, h⟩
      rcases List.mem_cons.mp hx with rfl | hx
      · exact hke
      · exact Std.TransCmp.lt_trans hke (he.1 x hx)
    · rename_i hke
      exact List.pairwise_cons.mpr
        ⟨fun x hx => Std.TransCmp.lt_of_eq_of_lt hke (he.1 x hx), he.2⟩
    · rename_i hke
      refine List.pairwise_cons.mpr ⟨fun x hx => ?_, ih he.2⟩
      rcases mem_of_mem_insertOrdered hx with rfl | hx
      · exact Std.OrientedCmp.lt_of_gt hke
      · exact he.1 x hx

instance : EmptyCollection (SortedMap κ ν) := ⟨⟨[], .nil⟩⟩

instance : Inhabited (SortedMap κ ν) := ⟨∅⟩

instance [DecidableEq κ] [DecidableEq ν] : DecidableEq (SortedMap κ ν) := fun s t =>
  decidable_of_iff (s.entries = t.entries) (by cases s; cases t; simp)

def find? [DecidableEq κ] (s : SortedMap κ ν) (k : κ) : Option ν :=
  (s.entries.find? (·.1 = k)).map (·.2)

def keys (s : SortedMap κ ν) : List κ := s.entries.map (·.1)

def size (s : SortedMap κ ν) : Nat := s.entries.length

theorem find?_insertOrdered [DecidableEq κ] [Std.LawfulEqOrd κ] (k j : κ) (v : ν)
    (s : List (κ × ν)) :
    ((insertOrdered k v s).find? (·.1 = j)).map (·.2) =
      if k = j then some v else (s.find? (·.1 = j)).map (·.2) := by
  induction s with
  | nil => by_cases h : k = j <;> simp [insertOrdered, h]
  | cons e rest ih =>
    unfold insertOrdered
    split
    · by_cases h : k = j <;> simp [h]
    · rename_i hke
      have : k = e.1 := Std.LawfulEqOrd.eq_of_compare hke
      by_cases h : k = j <;> simp [h, ← this]
    · rename_i hke
      have hne : k ≠ e.1 := fun h => by simp [h] at hke
      by_cases h : k = j
      · have he : e.1 ≠ j := fun he => hne (h.trans he.symm)
        rw [List.find?_cons_of_neg (by simpa using he), ih, if_pos h, if_pos h]
      · by_cases he : e.1 = j <;> simp [he, ih, h]

variable [Std.TransOrd κ]

def insert (s : SortedMap κ ν) (k : κ) (v : ν) : SortedMap κ ν :=
  ⟨insertOrdered k v s.entries, ordered_insertOrdered k v s.ordered⟩

@[simp] theorem find?_insert [DecidableEq κ] [Std.LawfulEqOrd κ] (s : SortedMap κ ν) (k j : κ)
    (v : ν) : (s.insert k v).find? j = if k = j then some v else s.find? j :=
  find?_insertOrdered k j v s.entries

/-- Of two values under one key the later counts. -/
def ofList (entries : List (κ × ν)) : SortedMap κ ν :=
  entries.foldl (fun s e => s.insert e.1 e.2) ∅

end SortedMap
end MinimalistGrammar
