import MinimalistGrammar.Proofs.Combination
import MinimalistGrammar.Proofs.Operation

/-! Attaching does not hang on the order of the two expressions. Their outer features tell which of them is the host and
by which operator the other is attached to it, and entries combine in both orders or in none. -/
namespace MinimalistGrammar

namespace Expression
variable {host child : FeatureKind} {a b result : Expression}

/-- The outer features of two expressions are of the two kinds and of one category. The one with the first kind is the
host, and stays as it is but for the other in front of its children. -/
inductive Attaches (host child : FeatureKind) (a b : Expression) : Expression → Prop where
  | first {category : Text} (ha : a.outerCategory? host = some category) (hb : b.outerCategory? child = some category) :
      Attaches host child a b { a with children := b :: a.children }
  | second {category : Text} (hb : b.outerCategory? host = some category)
      (ha : a.outerCategory? child = some category) : Attaches host child a b { b with children := a :: b.children }

theorem Attaches.symm (h : Attaches host child a b result) : Attaches host child b a result := by
  cases h with
  | first ha hb => exact .second ha hb
  | second hb ha => exact .first hb ha

theorem attachBy?_eq_some_iff (hkinds : host ≠ child) :
    attachBy? host child a b = some result ↔ Attaches host child a b result := by
  constructor
  · intro h
    rcases of_attachBy? h with ⟨category, ha, hb, rfl⟩ | ⟨category, hb, ha, rfl⟩
    · exact .first ha hb
    · exact .second hb ha
  · intro h
    cases h with
    | first ha hb => exact if_pos (outersMatch_iff.mpr ⟨_, ha, hb⟩)
    | second hb ha =>
      -- the expressions do not match the other way round too, since one expression has one outer feature
      have hother : ¬outersMatch host child a b := by
        intro hmatch
        obtain ⟨category', ha', -⟩ := outersMatch_iff.mp hmatch
        exact hkinds (eq_of_outerCategory? ha' ha).1
      exact (if_neg hother).trans (if_pos (outersMatch_iff.mpr ⟨_, hb, ha⟩))

theorem attachBy?_comm (hkinds : host ≠ child) (a b : Expression) :
    attachBy? host child a b = attachBy? host child b a := by
  refine Option.ext fun result => ?_
  rw [attachBy?_eq_some_iff hkinds, attachBy?_eq_some_iff hkinds]
  exact ⟨.symm, .symm⟩

theorem insert?_comm (a b : Expression) : insert? a b = insert? b a := attachBy?_comm (by decide) a b

theorem insertAdjunct?_comm (a b : Expression) : insertAdjunct? a b = insertAdjunct? b a :=
  attachBy?_comm (by decide) a b

/-- A licensor has the outer place in one of two expressions, or an adjunct feature has, but not both. -/
theorem insert?_eq_none_or (a b : Expression) : insert? a b = none ∨ insertAdjunct? a b = none := by
  have hkind {e : Expression} {kind kind' : FeatureKind} {category category' : Text}
      (he : e.outerCategory? kind = some category) (he' : e.outerCategory? kind' = some category') : kind = kind' :=
    (eq_of_outerCategory? he he').1
  cases hinsert : insert? a b with
  | none => exact .inl rfl
  | some result =>
    refine .inr (Option.eq_none_iff_forall_ne_some.mpr fun result' hadjunct => ?_)
    cases (attachBy?_eq_some_iff (by decide)).mp hinsert with
    | first ha hb =>
      cases (attachBy?_eq_some_iff (by decide)).mp hadjunct with
      | first ha' hb' => cases hkind ha ha'
      | second hb' ha' => cases hkind ha ha'
    | second hb ha =>
      cases (attachBy?_eq_some_iff (by decide)).mp hadjunct with
      | first ha' hb' => cases hkind hb hb'
      | second hb' ha' => cases hkind hb hb'

end Expression

namespace ChartEntry

theorem areApart_comm (first second : ChartEntry) : first.areApart second = second.areApart first := by
  rw [Bool.eq_iff_iff, areApart_iff, areApart_iff]
  constructor <;>
  · rintro ⟨hne, ⟨hfirst, hfirst'⟩, ⟨hsecond, hsecond'⟩, hdisjoint⟩
    exact ⟨hne.symm, ⟨hsecond', hsecond⟩, ⟨hfirst', hfirst⟩, fun id h h' => hdisjoint id h' h⟩

theorem retired_comm (first second : ChartEntry) :
    ((first.retired.union second.retired).insert first.id).insert second.id =
      ((second.retired.union first.retired).insert second.id).insert first.id := by
  refine SortedSet.ext_of_mem_iff fun id => ?_
  simp only [SortedSet.mem_insert_iff, SortedSet.mem_union]
  rw [or_left_comm, or_comm (a := id ∈ first.retired)]

def swapSources (made : ChartEntry × Counters) : ChartEntry × Counters :=
  ({ made.1 with sources := made.1.sources.reverse }, made.2)

/-- An operator for which the order does not matter makes the same entry in both orders, but for the order of its
sources. -/
theorem applyBinary?_swap {operator : BinaryOperator} (h : ∀ a b, operator a b = operator b a) (name : Text)
    (first second : ChartEntry) (counters : Counters) :
    second.applyBinary? name operator first counters =
      (first.applyBinary? name operator second counters).map swapSources := by
  unfold applyBinary?
  rw [h second.expression, areApart_comm second, retired_comm second]
  cases operator first.expression second.expression with
  | none => rfl
  | some expression => cases first.areApart second <;> rfl

end ChartEntry

open Expression in
/-- Two expressions are attached to each other in both orders or in none, and by one operator at most: the one is the
host, as the outer features tell, and has the other in front of its children then. So two entries make the same entry
in both orders, but for the order of its sources, and leave the same counters. -/
theorem attachment_symmetric :
    (∀ a b : Expression,
      insert? a b = insert? b a ∧ insertAdjunct? a b = insertAdjunct? b a ∧
        (insert? a b = none ∨ insertAdjunct? a b = none) ∧
        (∀ result, insert? a b = some result ↔ Attaches .licensor .licensee a b result) ∧
        ∀ result, insertAdjunct? a b = some result ↔ Attaches .licensee .adjunct a b result) ∧
      ∀ (name : Text) (first second : ChartEntry) (counters : Counters),
        second.applyBinary? name insert? first counters =
            (first.applyBinary? name insert? second counters).map ChartEntry.swapSources ∧
          second.applyBinary? name insertAdjunct? first counters =
            (first.applyBinary? name insertAdjunct? second counters).map ChartEntry.swapSources := by
  refine ⟨fun a b => ⟨insert?_comm a b, insertAdjunct?_comm a b, insert?_eq_none_or a b, fun result => ?_,
    fun result => ?_⟩, fun name first second counters => ⟨?_, ?_⟩⟩
  · exact attachBy?_eq_some_iff (by decide)
  · exact attachBy?_eq_some_iff (by decide)
  · exact ChartEntry.applyBinary?_swap insert?_comm name first second counters
  · exact ChartEntry.applyBinary?_swap insertAdjunct?_comm name first second counters

end MinimalistGrammar
