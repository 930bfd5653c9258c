import MinimalistGrammar.Proofs.Correspondence
import MinimalistGrammar.Proofs.Renaming

/-! Grammars with other names for their categories. A category is nothing but what it is equal to, so that the
parses are the same but for the names, as long as different categories have different names. -/
namespace MinimalistGrammar

def LexicalItem.mapCategories (ρ : Text → Text) (item : LexicalItem) : LexicalItem :=
  { item with features := item.features.map (·.mapCategory ρ) }

def Grammar.mapCategories (ρ : Text → Text) (g : Grammar) : Grammar :=
  ⟨g.items.map (·.mapCategories ρ), .ofList (g.startCategories.elements.map ρ)⟩

def Expression.mapCategories (ρ : Text → Text) (e : Expression) : Expression := e.rename ⟨ρ, id⟩

namespace Grammar
variable (ρ : Text → Text) (g : Grammar)

theorem lookup_mapCategories (token : Text) :
    (g.mapCategories ρ).lookup token = (g.lookup token).map (·.mapCategories ρ) := by
  rw [lookup, mapCategories, List.filter_map]
  rfl

theorem itemsOf_mapCategories (tokens : List Text) :
    Parsing.itemsOf (g.mapCategories ρ) tokens = (Parsing.itemsOf g tokens).map (·.mapCategories ρ) := by
  have hlookup : (g.mapCategories ρ).lookup = fun token => (g.lookup token).map (·.mapCategories ρ) :=
    funext (g.lookup_mapCategories ρ)
  simp only [Parsing.itemsOf, nullItems, hlookup, List.map_append, List.map_flatMap]

theorem mem_startCategories_mapCategories {ρ : Text → Text} (hρ : Function.Injective ρ) {category : Text} :
    ρ category ∈ (g.mapCategories ρ).startCategories ↔ category ∈ g.startCategories := by
  rw [mapCategories, SortedSet.mem_ofList, List.mem_map_of_injective hρ, SortedSet.mem_elements]

end Grammar

namespace Expression

theorem mapCategories_ofItem (ρ : Text → Text) (item : LexicalItem) :
    (ofItem item).mapCategories ρ = ofItem (item.mapCategories ρ) := by
  rw [mapCategories, ofItem, rename_mk, Formula.mapIndices_id, List.map_nil, List.map_nil]
  rfl

end Expression

namespace ChartEntry

mutual
def mapCategories (ρ : Text → Text) : ChartEntry → ChartEntry
  | ⟨id, expression, operator?, sources, retired⟩ =>
    ⟨id, expression.mapCategories ρ, operator?, mapCategoriesOfAll ρ sources, retired⟩

def mapCategoriesOfAll (ρ : Text → Text) : List ChartEntry → List ChartEntry
  | [] => []
  | e :: rest => mapCategories ρ e :: mapCategoriesOfAll ρ rest
end

theorem mapCategoriesOfAll_eq_map (ρ : Text → Text) (entries : List ChartEntry) :
    mapCategoriesOfAll ρ entries = entries.map (mapCategories ρ) := by
  induction entries with
  | nil => rfl
  | cons e rest ih => rw [mapCategoriesOfAll, ih, List.map_cons]

section
variable (ρ : Text → Text)

theorem mapCategories_mk (id : Int) (expression : Expression) (operator? : Option Text)
    (sources : List ChartEntry) (retired : SortedSet Int) :
    mapCategories ρ ⟨id, expression, operator?, sources, retired⟩ =
      ⟨id, expression.mapCategories ρ, operator?, sources.map (mapCategories ρ), retired⟩ := by
  rw [mapCategories, mapCategoriesOfAll_eq_map]

variable (e : ChartEntry)

@[simp] theorem id_mapCategories : (e.mapCategories ρ).id = e.id := by
  cases e
  rw [mapCategories]

@[simp] theorem expression_mapCategories :
    (e.mapCategories ρ).expression = e.expression.mapCategories ρ := by
  cases e
  rw [mapCategories]

@[simp] theorem operator?_mapCategories : (e.mapCategories ρ).operator? = e.operator? := by
  cases e
  rw [mapCategories]

@[simp] theorem retired_mapCategories : (e.mapCategories ρ).retired = e.retired := by
  cases e
  rw [mapCategories]

end

structure IsRenamed (ρ : Text → Text) (e e' : ChartEntry) : Prop where
  id_eq : e'.id = e.id
  operator?_eq : e'.operator? = e.operator?
  phon_eq : e'.expression.phon = e.expression.phon
  meaning_eq : e'.expression.meaning = e.expression.meaning
  features_eq : e'.expression.features = e.expression.features.map (·.mapCategory ρ)
  categories_eq : e'.expression.arguments.map (·.category) =
    e.expression.arguments.map fun argument => ρ argument.category

theorem isRenamed_mapCategories (ρ : Text → Text) (e : ChartEntry) : e.IsRenamed ρ (e.mapCategories ρ) := by
  constructor <;> simp [Expression.mapCategories, Argument.rename]

section
variable {ρ : Text → Text} {counters : Counters} {name : Text}

theorem applyUnary?_mapCategories {operator operator' : UnaryOperator} (entry : ChartEntry)
    (h : operator' counters.nextIndex (entry.expression.mapCategories ρ) =
      (operator counters.nextIndex entry.expression).map fun made => (made.1.mapCategories ρ, made.2)) :
    (entry.mapCategories ρ).applyUnary? name operator' counters =
      (entry.applyUnary? name operator counters).map fun made => (made.1.mapCategories ρ, made.2) := by
  unfold applyUnary?
  rw [id_mapCategories, retired_mapCategories, expression_mapCategories, h]
  split
  · rfl
  · rw [Option.map_map, Option.map_map]
    rfl

theorem applyBinary?_mapCategories {operator : BinaryOperator} (first second : ChartEntry)
    (h : operator (first.expression.mapCategories ρ) (second.expression.mapCategories ρ) =
      (operator first.expression second.expression).map (Expression.mapCategories ρ)) :
    (first.mapCategories ρ).applyBinary? name operator (second.mapCategories ρ) counters =
      (first.applyBinary? name operator second counters).map
        fun made => (made.1.mapCategories ρ, made.2) := by
  have hapart : (first.mapCategories ρ).areApart (second.mapCategories ρ) = first.areApart second := by
    simp only [areApart, id_mapCategories, retired_mapCategories]
  unfold applyBinary?
  rw [expression_mapCategories, expression_mapCategories, h, hapart]
  cases operator first.expression second.expression with
  | none => rfl
  | some expression =>
    simp only [Option.map_some]
    split
    · simp only [Option.map_some, mapCategories_mk, List.map_cons, List.map_nil, id_mapCategories,
        retired_mapCategories]
    · rfl

end

theorem isAccepting_mapCategories {ρ : Text → Text} (hρ : Function.Injective ρ) (g : Grammar)
    (lexical : SortedSet Int) (e : ChartEntry) :
    (e.mapCategories ρ).isAccepting (g.mapCategories ρ).startCategories lexical =
      e.isAccepting g.startCategories lexical := by
  have hfeatures : (e.mapCategories ρ).expression.features = e.expression.features.map (·.mapCategory ρ) :=
    (isRenamed_mapCategories ρ e).features_eq
  unfold isAccepting
  rw [hfeatures, retired_mapCategories]
  match e.expression.features with
  | [⟨.licensee, category⟩] =>
    simp only [List.map_cons, List.map_nil, Feature.mapCategory, g.mem_startCategories_mapCategories hρ]
  | [] | ⟨.licensor, _⟩ :: _ | ⟨.adjunct, _⟩ :: _ | ⟨.licensee, _⟩ :: _ :: _ => rfl

end ChartEntry

def Correspondence.ofCategories (ρ : Text → Text) : Correspondence := ⟨ChartEntry.mapCategories ρ, id⟩

namespace Parsing

def Outcome.mapCategories (ρ : Text → Text) (o : Outcome) : Outcome :=
  { o with
    chart := ⟨o.chart.newestFirst.map (ChartEntry.mapCategories ρ)⟩
    entry? := o.entry?.map (ChartEntry.mapCategories ρ) }

theorem lexicalEntries_mapCategories (ρ : Text → Text) (first : Int) (items : List LexicalItem) :
    lexicalEntries first (items.map (·.mapCategories ρ)) =
      (lexicalEntries first items).map (ChartEntry.mapCategories ρ) := by
  rw [lexicalEntries, lexicalEntries, List.zipIdx_map, List.map_map, List.map_map]
  refine List.map_congr_left fun made _ => ?_
  simp only [Function.comp_apply, Prod.map, ChartEntry.mapCategories_mk, Expression.mapCategories_ofItem,
    List.map_nil, id_eq]

theorem stepBound_mapCategories (ρ : Text → Text) (items : List LexicalItem) :
    stepBound (items.map (·.mapCategories ρ)) = stepBound items := by
  have hcount : featureCount (items.map (·.mapCategories ρ)) = featureCount items := by
    induction items with
    | nil => rfl
    | cons item items ih =>
      rw [List.map_cons, featureCount, featureCount, ih, LexicalItem.mapCategories, List.length_map]
  rw [stepBound, stepBound, hcount, List.length_map]

namespace Setting

def mapCategories (ρ : Text → Text) (setting : Setting) : Setting :=
  ⟨setting.grammar.mapCategories ρ, setting.categories.map ρ⟩

section
variable (setting : Setting) {ρ : Text → Text} (tokens : List Text) (counters : Counters)

theorem entries_mapCategories : (setting.mapCategories ρ).entries tokens counters =
    (setting.entries tokens counters).map (ChartEntry.mapCategories ρ) := by
  rw [entries, mapCategories, Grammar.itemsOf_mapCategories, lexicalEntries_mapCategories, ← entries]

variable (hρ : Function.Injective ρ)
include hρ

theorem accepts_mapCategories (e : ChartEntry) :
    (setting.mapCategories ρ).accepts tokens counters (e.mapCategories ρ) =
      setting.accepts tokens counters e := by
  have hids : ((setting.mapCategories ρ).entries tokens counters).map (·.id) =
      (setting.entries tokens counters).map (·.id) := by
    rw [entries_mapCategories, List.map_map]
    exact List.map_congr_left fun e _ => ChartEntry.id_mapCategories ρ e
  rw [accepts, accepts, hids]
  exact ChartEntry.isAccepting_mapCategories hρ setting.grammar _ e

theorem respects_mapCategories : (Correspondence.ofCategories ρ).Respects setting.categories
    (setting.mapCategories ρ).categories counters := by
  constructor
  · intro a b h
    rwa [Correspondence.ofCategories, ChartEntry.id_mapCategories, ChartEntry.id_mapCategories] at h
  · intro e
    have hindex : id counters.nextIndex = counters.nextIndex + 0 := (Int.add_zero _).symm
    have hspellOut := Expression.spellOut?_rename (ν := ⟨ρ, id⟩) hρ hindex setting.categories e.expression
    simp only [Int.add_zero] at hspellOut
    exact ChartEntry.applyUnary?_mapCategories e hspellOut
  · intro name operator hop e
    have hmerge := Operation.merge_rename (ν := ⟨ρ, id⟩) hρ hop counters.nextIndex 0 e.expression
    simp only [Int.add_zero] at hmerge
    exact ChartEntry.applyUnary?_mapCategories e hmerge
  · intro name operator hop a b
    exact ChartEntry.applyBinary?_mapCategories a b (Operation.binary_rename hρ hop _ _)

theorem relates_mapCategories : (Correspondence.ofCategories ρ).Relates setting
    (setting.mapCategories ρ) tokens counters where
  respects := fun {s} _ => setting.respects_mapCategories s.counters hρ
  entries_eq := setting.entries_mapCategories tokens counters
  nextId_add := fun _ => rfl
  accepts_eq := setting.accepts_mapCategories tokens counters hρ
  bound_eq := by rw [mapCategories, Grammar.itemsOf_mapCategories, stepBound_mapCategories]

end

/-- Categories are opaque. With different names for different categories, in the grammar and for clauses and
verbs, the parse of a text is the same but for these names. -/
theorem parse_mapCategories {ρ : Text → Text} (hρ : Function.Injective ρ) (setting : Setting) (text : Text)
    (counters : Counters) :
    let o := setting.parse text counters
    let o' := (setting.mapCategories ρ).parse text counters
    o' = o.mapCategories ρ ∧ o'.tokens = o.tokens ∧ o'.unknown = o.unknown ∧
      o'.isAccepted = o.isAccepted ∧ o'.chart.size = o.chart.size ∧ o'.steps = o.steps ∧
      (∀ (i : Nat) (e : ChartEntry), o.chart.entries[i]? = some e →
        ∃ e', o'.chart.entries[i]? = some e' ∧ e.IsRenamed ρ e') ∧
      ∀ e : ChartEntry, o.entry? = some e → ∃ e', o'.entry? = some e' ∧ e.IsRenamed ρ e' := by
  intro o o'
  have hparse : o' = o.mapCategories ρ := by
    refine (setting.relates_mapCategories (tokenize text) counters hρ).parse_eq fun token => ?_
    rw [mapCategories, Grammar.lookup_mapCategories, List.isEmpty_map]
  have hentries : (o.mapCategories ρ).chart.entries = o.chart.entries.map (ChartEntry.mapCategories ρ) := by
    rw [Chart.entries, Chart.entries, Outcome.mapCategories, List.map_reverse]
  refine ⟨hparse, ?_⟩
  rw [hparse, hentries]
  refine ⟨rfl, rfl, ?_, ?_, rfl, fun i e he => ?_, fun e he => ?_⟩
  · rw [Outcome.isAccepted, Outcome.mapCategories, Option.isSome_map, Outcome.isAccepted]
  · rw [Chart.size, Outcome.mapCategories, List.length_map, Chart.size]
  · rw [List.getElem?_map, he]
    exact ⟨_, rfl, e.isRenamed_mapCategories ρ⟩
  · rw [Outcome.mapCategories, he]
    exact ⟨_, rfl, e.isRenamed_mapCategories ρ⟩

/-- Every category with one letter more, and the clauses and verbs named so. -/
theorem parse_mapCategories_longer_names :
    let ρ : Text → Text := fun category => CodePoint.char 'x' :: category
    let setting : Setting := ⟨⟨[⟨"Maria", [⟨.licensee, "d"⟩], .const "maria"⟩,
      ⟨"sleeps", [⟨.licensor, "d"⟩, ⟨.licensee, "v"⟩], .const "sleep"⟩,
      ⟨"", [⟨.licensor, "v"⟩, ⟨.licensee, "c"⟩], .const "past"⟩], .ofList ["c"]⟩, {}⟩
    let o := setting.parse "Maria sleeps" {}
    let o' := (setting.mapCategories ρ).parse "Maria sleeps" {}
    Function.Injective ρ ∧ (setting.mapCategories ρ).categories = ⟨"xc", "xv"⟩ ∧
      o.isAccepted ∧ o'.isAccepted ∧
      o'.entry?.map (·.expression.features) = some [⟨.licensee, "xc"⟩] ∧
      ∀ e : ChartEntry, o.entry? = some e → ∃ e', o'.entry? = some e' ∧ e.IsRenamed ρ e' := by
  intro ρ setting o o'
  have hρ : Function.Injective ρ := fun _ _ h => (List.cons.inj h).2
  have haccepted : o.isAccepted := by decide +kernel
  have hfeatures : o'.entry?.map (·.expression.features) = some [⟨.licensee, "xc"⟩] := by
    decide +kernel
  obtain ⟨-, -, -, hsame, -, -, -, hentry⟩ := parse_mapCategories hρ setting "Maria sleeps" {}
  exact ⟨hρ, rfl, haccepted, hsame.trans haccepted, hfeatures, hentry⟩

end Setting
end Parsing
end MinimalistGrammar
