import MinimalistGrammar.Collection.SortedSet
import MinimalistGrammar.Expression.Basic

/-! Chart entries: an expression under an id of its own, together with how it was built. -/
namespace MinimalistGrammar

/-- An entry without an operator is a lexical insertion. The retired ids are those of all entries
that went into this one. -/
structure ChartEntry where
  id : Int
  expression : Expression
  operator? : Option Text := none
  sources : List ChartEntry := []
  retired : SortedSet Int := ∅

namespace ChartEntry

mutual
/-- Entries are equal if all their parts are, sources included. -/
def decideEq : (a b : ChartEntry) → Decidable (a = b)
  | ⟨id, expression, operator, sources, retired⟩,
      ⟨id', expression', operator', sources', retired'⟩ =>
    if h : id = id' ∧ expression = expression' ∧ operator = operator' ∧ retired = retired' then
      match decideEqList sources sources' with
      | isTrue hs => isTrue (by obtain ⟨rfl, rfl, rfl, rfl⟩ := h; rw [hs])
      | isFalse hs => isFalse (by intro he; cases he; exact hs rfl)
    else isFalse (by intro he; cases he; exact h ⟨rfl, rfl, rfl, rfl⟩)

def decideEqList : (a b : List ChartEntry) → Decidable (a = b)
  | [], [] => isTrue rfl
  | [], _ :: _ => isFalse nofun
  | _ :: _, [] => isFalse nofun
  | a :: as, b :: bs =>
    match decideEq a b, decideEqList as bs with
    | isTrue h, isTrue hs => isTrue (by rw [h, hs])
    | isFalse h, _ => isFalse (by intro he; cases he; exact h rfl)
    | _, isFalse hs => isFalse (by intro he; cases he; exact hs rfl)
end

instance : DecidableEq ChartEntry := decideEq

/-- Nothing is left but one licensee of a start category, and every lexical entry went into the
entry. -/
def isAccepting (startCategories : SortedSet Text) (lexical : SortedSet Int)
    (entry : ChartEntry) : Bool :=
  match entry.expression.features with
  | [⟨.licensee, category⟩] => category ∈ startCategories && lexical.isSubset entry.retired
  | _ => false

end ChartEntry

/-- The entries built so far, the newest first. -/
structure Chart where
  newestFirst : List ChartEntry := []

namespace Chart

instance : EmptyCollection Chart := ⟨⟨[]⟩⟩

instance : Membership ChartEntry Chart := ⟨fun c e => e ∈ c.newestFirst⟩

instance (entry : ChartEntry) (chart : Chart) : Decidable (entry ∈ chart) :=
  inferInstanceAs (Decidable (entry ∈ chart.newestFirst))

def size (chart : Chart) : Nat := chart.newestFirst.length

/-- In the order in which they were added. -/
def entries (chart : Chart) : List ChartEntry := chart.newestFirst.reverse

/-- A new entry; one that is there already is refused. -/
def add? (chart : Chart) (entry : ChartEntry) : Option Chart :=
  if entry ∈ chart then none else some ⟨entry :: chart.newestFirst⟩

def ofList (entries : List ChartEntry) : Chart :=
  entries.foldl (fun chart entry => (chart.add? entry).getD chart) ∅

end Chart
end MinimalistGrammar
