import Mathlib.Data.List.Perm.Basic
import MinimalistGrammar.Proofs.ListingRows
import MinimalistGrammar.Proofs.Search

/-! What the listing of a derivation tells. Its lines are the entries of the derivation, each behind all that went into
it, and the operands of a line are the numbers of those lines that end the listings of its sources. So the derivation
is built again from its lines, one after the other. -/
namespace MinimalistGrammar
namespace ChartEntry

mutual
/-- The entries of a derivation, one for each place of the tree, each behind all that went into it. -/
def postorder : ChartEntry → List ChartEntry
  | ⟨id, expression, operator?, sources, retired⟩ =>
    postorderOfAll sources ++ [⟨id, expression, operator?, sources, retired⟩]

def postorderOfAll : List ChartEntry → List ChartEntry
  | [] => []
  | source :: rest => postorder source ++ postorderOfAll rest
end

theorem postorder_eq_append (entry : ChartEntry) :
    entry.postorder = postorderOfAll entry.sources ++ [entry] := by
  cases entry
  rw [postorder]

mutual
theorem postorder_perm_nodes : ∀ entry : ChartEntry, entry.postorder.Perm entry.nodes
  | ⟨id, expression, operator?, sources, retired⟩ => by
    rw [postorder, nodes]
    exact List.perm_append_comm.trans ((postorderOfAll_perm_nodes sources).cons _)

theorem postorderOfAll_perm_nodes : ∀ entries : List ChartEntry, (postorderOfAll entries).Perm (nodesOfAll entries)
  | [] => .refl _
  | source :: rest => (postorder_perm_nodes source).append (postorderOfAll_perm_nodes rest)
end

theorem length_postorder (entry : ChartEntry) : entry.postorder.length = entry.nodes.length :=
  (postorder_perm_nodes entry).length_eq

theorem length_nodes_eq_add_one (entry : ChartEntry) :
    entry.nodes.length = (postorderOfAll entry.sources).length + 1 := by
  rw [← length_postorder, postorder_eq_append, List.length_append, List.length_singleton]

/-- The numbers of the lines that end the listings of several entries, the first of which begins on the given line and
each other one behind the one before. -/
def lastLines (next : Nat) : List ChartEntry → List Nat
  | [] => []
  | source :: rest => (next + source.nodes.length - 1) :: lastLines (next + source.nodes.length) rest

def rowAt (place : ChartEntry × Nat) : Row :=
  match place.1.operator? with
  | none => .lexical place.1.expression.text
  | some operator =>
    .derived operator (lastLines (place.2 + 1 - place.1.nodes.length) place.1.sources) place.1.expression.text

def lineAt (place : ChartEntry × Nat) : Text := (rowAt place).text place.2

theorem lineAt_eq_line (entry : ChartEntry) (next : Nat) :
    lineAt (entry, next + (postorderOfAll entry.sources).length) =
      line (next + (postorderOfAll entry.sources).length) entry.operator? ((lastLines next entry.sources).map label)
        entry.expression := by
  have hfirst : next + (postorderOfAll entry.sources).length + 1 - entry.nodes.length = next := by
    rw [length_nodes_eq_add_one]
    omega
  unfold lineAt rowAt line
  rw [hfirst]
  cases entry.operator? with
  | none => rfl
  | some operator => simp only [Row.text, Row.content, List.append_assoc]

mutual
theorem linesFrom_eq_map (next : Nat) :
    ∀ entry : ChartEntry, linesFrom next entry = (entry.postorder.zipIdx next).map lineAt
  | ⟨id, expression, operator?, sources, retired⟩ => by
    rw [linesFrom, sourceLinesFrom_eq_map next sources, postorder, List.zipIdx_append, List.map_append,
      List.zipIdx_singleton, List.map_singleton, lineAt_eq_line]
    dsimp only
    rw [List.length_map, List.length_zipIdx]

theorem sourceLinesFrom_eq_map (next : Nat) : ∀ entries : List ChartEntry, sourceLinesFrom next entries =
    (((postorderOfAll entries).zipIdx next).map lineAt, (lastLines next entries).map label)
  | [] => rfl
  | source :: rest => by
    have hlength : (linesFrom next source).length = source.nodes.length := by
      rw [linesFrom_eq_map next source, List.length_map, List.length_zipIdx, length_postorder]
    rw [sourceLinesFrom]
    dsimp only
    rw [hlength, sourceLinesFrom_eq_map _ rest, linesFrom_eq_map next source, postorderOfAll, List.zipIdx_append,
      List.map_append, length_postorder, lastLines, List.map_cons]
end

theorem length_linesFrom (next : Nat) (entry : ChartEntry) : (linesFrom next entry).length = entry.nodes.length := by
  rw [linesFrom_eq_map, List.length_map, List.length_zipIdx, length_postorder]

def EndsIn (order : List ChartEntry) (source : ChartEntry) (number : Nat) : Prop :=
  ∃ before, before ++ source.postorder <+: order ∧ before.length + source.nodes.length = number + 1

theorem EndsIn.getElem?_eq {order : List ChartEntry} {source : ChartEntry} {number : Nat}
    (h : EndsIn order source number) : order[number]? = some source := by
  obtain ⟨before, ⟨behind, rfl⟩, hnumber⟩ := h
  rw [length_nodes_eq_add_one] at hnumber
  have hplace : number = (before ++ postorderOfAll source.sources).length := by
    rw [List.length_append]
    omega
  rw [postorder_eq_append, ← List.append_assoc, List.append_assoc _ [source], hplace]
  simp

def OperandsEnd (order : List ChartEntry) (place : ChartEntry × Nat) : Prop :=
  List.Forall₂ (fun source operand => operand < place.2 ∧ EndsIn order source operand) place.1.sources
    (lastLines (place.2 + 1 - place.1.nodes.length) place.1.sources)

theorem endsIn_lastLines {order : List ChartEntry} {bound : Nat} (sources : List ChartEntry) :
    ∀ before : List ChartEntry, before ++ postorderOfAll sources <+: order →
      before.length + (postorderOfAll sources).length ≤ bound →
      List.Forall₂ (fun source operand => operand < bound ∧ EndsIn order source operand) sources
        (lastLines before.length sources) := by
  induction sources with
  | nil => exact fun _ _ _ => .nil
  | cons source rest ih =>
    intro before horder hbound
    rw [postorderOfAll, ← List.append_assoc] at horder
    rw [postorderOfAll, List.length_append, length_postorder] at hbound
    have hrest := ih (before ++ source.postorder) horder (by rw [List.length_append, length_postorder]; omega)
    rw [List.length_append, length_postorder] at hrest
    have hpos : 0 < source.nodes.length := by rw [length_nodes_eq_add_one]; omega
    refine .cons ⟨by omega, before, (List.prefix_append _ _).trans horder, by omega⟩ hrest

mutual
theorem operandsEnd_of_mem_postorder {order : List ChartEntry} : ∀ (entry : ChartEntry) (before : List ChartEntry),
    before ++ entry.postorder <+: order → ∀ place ∈ entry.postorder.zipIdx before.length, OperandsEnd order place
  | ⟨id, expression, operator?, sources, retired⟩, before, horder, place, hplace => by
    rw [postorder, ← List.append_assoc] at horder
    have hsources := (List.prefix_append _ _).trans horder
    rw [postorder, List.zipIdx_append, List.mem_append, List.zipIdx_singleton, List.mem_singleton] at hplace
    rcases hplace with hplace | rfl
    · exact operandsEnd_of_mem_postorderOfAll sources before hsources place hplace
    · -- The sources fill the places from the first one of the derivation up to that of the entry itself.
      rw [OperandsEnd]
      dsimp only
      rw [length_nodes_eq_add_one, Nat.add_sub_add_right, Nat.add_sub_cancel]
      exact endsIn_lastLines sources before hsources (Nat.le_refl _)

theorem operandsEnd_of_mem_postorderOfAll {order : List ChartEntry} :
    ∀ (entries before : List ChartEntry), before ++ postorderOfAll entries <+: order →
      ∀ place ∈ (postorderOfAll entries).zipIdx before.length, OperandsEnd order place
  | [], _, _, _, hplace => nomatch hplace
  | source :: rest, before, horder, place, hplace => by
    rw [postorderOfAll, ← List.append_assoc] at horder
    rw [postorderOfAll, List.zipIdx_append, List.mem_append, ← List.length_append] at hplace
    rcases hplace with hplace | hplace
    · exact operandsEnd_of_mem_postorder source before ((List.prefix_append _ _).trans horder) place hplace
    · exact operandsEnd_of_mem_postorderOfAll rest (before ++ source.postorder) horder place hplace
end

/-- The form of a derivation: the operator and the written expression at every node. -/
inductive Shape where
  | node (operator? : Option Text) (expression : Text) (sources : List Shape)

mutual
def shape : ChartEntry → Shape
  | ⟨_, expression, operator?, sources, _⟩ => .node operator? expression.text (shapes sources)

def shapes : List ChartEntry → List Shape
  | [] => []
  | source :: rest => shape source :: shapes rest
end

theorem shapes_eq_map (entries : List ChartEntry) : shapes entries = entries.map shape := by
  induction entries with
  | nil => rfl
  | cons e rest ih => rw [shapes, ih, List.map_cons]

theorem shape_eq_node (entry : ChartEntry) :
    entry.shape = .node entry.operator? entry.expression.text (entry.sources.map shape) := by
  cases entry
  rw [shape, shapes_eq_map]

def Row.resolve? (built : List Shape) : Row → Option Shape
  | lexical expression => some (.node none expression [])
  | derived operator operands expression =>
    (operands.mapM (built[·]?)).map (.node (some operator) expression)

def resolveAll? (built : List Shape) (rows : List Row) : Option (List Shape) :=
  rows.foldlM (fun built row => (row.resolve? built).map fun made => built ++ [made]) built

def rebuild? (rows : List Row) : Option Shape := (resolveAll? [] rows).bind List.getLast?

theorem mapM_eq_some_of_forall₂ {α β γ : Type} {read : β → Option γ} {made : α → γ} {s : List α} {t : List β}
    (h : List.Forall₂ (fun a b => read b = some (made a)) s t) : t.mapM read = some (s.map made) := by
  induction h with
  | nil => rfl
  | cons hab _ ih => rw [List.mapM_cons, hab, ih]; rfl

def IsGrounded (entry : ChartEntry) : Prop := ∀ node ∈ entry.nodes, node.operator? = none → node.sources = []

instance (entry : ChartEntry) : Decidable entry.IsGrounded :=
  inferInstanceAs (Decidable (∀ node ∈ entry.nodes, _ → _))

theorem resolve?_rowAt {order : List ChartEntry} {place : ChartEntry × Nat} (hends : OperandsEnd order place)
    (hbare : place.1.operator? = none → place.1.sources = []) :
    (rowAt place).resolve? ((order.take place.2).map shape) = some place.1.shape := by
  rw [shape_eq_node, rowAt]
  cases hoperator : place.1.operator? with
  | none => rw [hbare hoperator]; rfl
  | some operator =>
    have hsources : (lastLines (place.2 + 1 - place.1.nodes.length) place.1.sources).mapM
        (((order.take place.2).map shape)[·]?) = some (place.1.sources.map shape) := by
      refine mapM_eq_some_of_forall₂ (hends.imp fun source operand h => ?_)
      rw [List.getElem?_map, List.getElem?_take_of_lt h.1, h.2.getElem?_eq]
      rfl
    dsimp only [Row.resolve?]
    rw [hsources]
    rfl

/-- Row by row, the forms of all entries of an order are built, if each row gives that of its entry from those
before. -/
theorem resolveAll?_rowAt {order : List ChartEntry} (h : ∀ place ∈ order.zipIdx,
    (rowAt place).resolve? ((order.take place.2).map shape) = some place.1.shape) (rest : List ChartEntry) :
    ∀ before, order = before ++ rest →
      resolveAll? (before.map shape) ((rest.zipIdx before.length).map rowAt) = some (order.map shape) := by
  induction rest with
  | nil =>
    rintro before rfl
    rw [List.append_nil]
    rfl
  | cons entry rest ih =>
    rintro before rfl
    have hstep := h (entry, before.length) (by simp [List.mem_zipIdx_iff_getElem?])
    rw [List.take_left] at hstep
    have hnext := ih (before ++ [entry]) (by simp)
    rw [List.map_append, List.length_append] at hnext
    rw [List.zipIdx_cons, List.map_cons, resolveAll?, List.foldlM_cons, hstep]
    exact hnext

def rows (entry : ChartEntry) : List Row := entry.postorder.zipIdx.map rowAt

theorem rebuild?_rows {entry : ChartEntry} (h : entry.IsGrounded) : rebuild? entry.rows = some entry.shape := by
  have hresolve : ∀ place ∈ entry.postorder.zipIdx,
      (rowAt place).resolve? ((entry.postorder.take place.2).map shape) = some place.1.shape := by
    intro place hplace
    have hends := operandsEnd_of_mem_postorder entry [] (List.prefix_refl _) place hplace
    have hnode := (postorder_perm_nodes entry).mem_iff.mp (List.fst_mem_of_mem_zipIdx hplace)
    exact resolve?_rowAt hends (h place.1 hnode)
  have hrows : resolveAll? [] entry.rows = some (entry.postorder.map shape) :=
    resolveAll?_rowAt hresolve entry.postorder [] rfl
  rw [rebuild?, hrows, postorder_eq_append]
  simp

theorem listing_eq_map (entry : ChartEntry) : entry.listing = entry.rows.zipIdx.map fun row => row.1.text row.2 := by
  refine List.ext_getElem? fun number => ?_
  rw [listing, linesFrom_eq_map, rows]
  cases hnode : entry.postorder[number]? <;> simp [hnode, lineAt]

/-- The listing of the entry, numbered from the line on which it begins, is part of the lines, and its last line has
the given number. -/
def EndsOn (lines : List Text) (entry : ChartEntry) (number : Nat) : Prop :=
  ∃ before, before ++ linesFrom before.length entry <+: lines ∧
    before.length + (linesFrom before.length entry).length = number + 1

theorem EndsIn.endsOn {order : List ChartEntry} {source : ChartEntry} {number : Nat} (h : EndsIn order source number) :
    EndsOn (order.zipIdx.map lineAt) source number := by
  obtain ⟨before, ⟨behind, rfl⟩, hnumber⟩ := h
  refine ⟨before.zipIdx.map lineAt, ?_, ?_⟩
  · rw [List.length_map, List.length_zipIdx, linesFrom_eq_map, List.zipIdx_append, List.zipIdx_append, Nat.zero_add,
      List.map_append, List.map_append]
    exact List.prefix_append _ _
  · rw [List.length_map, List.length_zipIdx, length_linesFrom, hnumber]

structure IsPlain (node : ChartEntry) : Prop where
  sources_eq : node.operator? = none → node.sources = []
  isPlainName : ∀ operator ∈ node.operator?, IsPlainName operator

def IsLegible (entry : ChartEntry) : Prop := ∀ node ∈ entry.nodes, node.IsPlain

theorem IsLegible.isGrounded {entry : ChartEntry} (h : entry.IsLegible) : entry.IsGrounded :=
  fun node hnode => (h node hnode).sources_eq

theorem IsLegible.isPlain_rows {entry : ChartEntry} (h : entry.IsLegible) : ∀ row ∈ entry.rows, row.IsPlain := by
  intro row hrow
  obtain ⟨⟨node, number⟩, hplace, rfl⟩ := List.mem_map.mp hrow
  have hnode := (postorder_perm_nodes entry).mem_iff.mp (List.fst_mem_of_mem_zipIdx hplace)
  unfold rowAt
  split
  · exact Expression.head?_text _
  · next operator hoperator => exact (h node hnode).isPlainName operator hoperator

/-- The listing of a legible derivation is that of no legible derivation of another form. -/
theorem IsLegible.shape_eq {entry other : ChartEntry} (h : entry.IsLegible) (h' : other.IsLegible)
    (hlisting : entry.listing = other.listing) : entry.shape = other.shape := by
  rw [listing_eq_map, listing_eq_map] at hlisting
  have hrebuild := rebuild?_rows h.isGrounded
  rw [rows_eq_of_texts_eq h.isPlain_rows h'.isPlain_rows hlisting, rebuild?_rows h'.isGrounded] at hrebuild
  exact (Option.some.inj hrebuild).symm

theorem IsPlain.of_operator {entry : ChartEntry} {name : Text} (hoperator : entry.operator? = some name)
    (hname : IsPlainName name) : entry.IsPlain := by
  constructor
  · intro hnone
    cases hnone.symm.trans hoperator
  · intro operator hsome
    obtain rfl : name = operator := Option.some.inj (hoperator.symm.trans hsome)
    exact hname

theorem isInherited_isPlain (categories : PhraseCategories) : IsInherited categories IsPlain := by
  have hnames : ∀ name ∈ Operation.names, IsPlainName name := by decide
  constructor
  · exact fun _ _ => ⟨fun _ => rfl, fun _ h => nomatch h⟩
  · intro name operator entry result counters counters' hop _ hr
    obtain ⟨-, expression, nextIndex, -, rfl, -⟩ := applyUnary?_eq_some_iff.mp hr
    exact .of_operator rfl (hnames name (Operation.mem_names_of_mem_unary hop))
  · intro name operator first second result counters counters' hop _ _ hr
    obtain ⟨-, expression, -, rfl, -⟩ := applyBinary?_eq_some_iff.mp hr
    exact .of_operator rfl (hnames name (Operation.mem_names_of_mem_binary hop))

/-- What the row tells of an entry on a line with the given number: its operator, its written expression, and for each
source in order the number of an earlier line, on which the listing of the source ends. -/
inductive Row.Describes (lines : List Text) (number : Nat) (node : ChartEntry) : Row → Prop where
  | lexical (hoperator : node.operator? = none) : Describes lines number node (.lexical node.expression.text)
  | derived {operator : Text} {operands : List Nat} (hoperator : node.operator? = some operator)
      (hoperands : List.Forall₂ (fun source operand => operand < number ∧ EndsOn lines source operand)
        node.sources operands) :
      Describes lines number node (.derived operator operands node.expression.text)

theorem describes_rowAt {entry : ChartEntry} {place : ChartEntry × Nat} (h : place ∈ entry.postorder.zipIdx) :
    (rowAt place).Describes entry.listing place.2 place.1 := by
  have hends : OperandsEnd entry.postorder place :=
    operandsEnd_of_mem_postorder entry [] (List.prefix_refl _) place h
  unfold rowAt
  split
  · next hoperator => exact .lexical hoperator
  · next operator hoperator =>
    refine .derived hoperator (hends.imp fun source operand hoperand => ⟨hoperand.1, ?_⟩)
    rw [listing, linesFrom_eq_map]
    exact hoperand.2.endsOn

/-- The listing of a derivation has a line for each place of the tree, with the label of its number: in some order of
the entries, of which the last is the entry itself, each line names the operator and the lines on which the listings of
the sources end. From these lines, one after the other, the form of the derivation is built again. Legible derivations
of different forms have different listings. -/
theorem shape_of_listing {entry : ChartEntry} (h : entry.IsGrounded) :
    ∃ (order : List ChartEntry) (rows : List Row),
      order.Perm entry.nodes ∧ order.getLast? = some entry ∧ rows.length = order.length ∧
      (entry.listing = rows.zipIdx.map fun row => label row.2 ++ " = " ++ row.1.content) ∧
      (∀ (number : Nat) (node : ChartEntry) (row : Row), order[number]? = some node → rows[number]? = some row →
        row.Describes entry.listing number node) ∧
      rebuild? rows = some entry.shape ∧
      (entry.IsLegible → ∀ other : ChartEntry, other.IsLegible → other.listing = entry.listing →
        other.shape = entry.shape) := by
  refine ⟨entry.postorder, entry.rows, postorder_perm_nodes entry, ?_, ?_, listing_eq_map entry, ?_, rebuild?_rows h,
    fun h other h' hlisting => h'.shape_eq h hlisting⟩
  · rw [postorder_eq_append, List.getLast?_append, List.getLast?_singleton, Option.some_or]
  · rw [rows, List.length_map, List.length_zipIdx]
  · intro number node row hnode hrow
    have hplace : (node, number) ∈ entry.postorder.zipIdx := List.mem_zipIdx_iff_getElem?.mpr hnode
    obtain rfl : rowAt (node, number) = row := by simpa [rows, hnode] using hrow
    exact describes_rowAt hplace

/-- An entry that went into a derivation in two places has two lines. -/
theorem shape_of_listing_shared_entry :
    let bob : ChartEntry := ⟨0, .ofItem ⟨"bob", [⟨.licensee, "d"⟩], .const "bob"⟩, none, [], ∅⟩
    let pair : ChartEntry := ⟨1, bob.expression, some "insert", [bob, bob], ∅⟩
    pair.IsGrounded ∧
      pair.listing = ["e0 = <bob::-d = bob, \x7b\x7d>", "e1 = <bob::-d = bob, \x7b\x7d>",
        "e2 = insert(e0, e1) = <bob::-d = bob, \x7b\x7d>"] ∧
      ∃ rows : List Row, rows.length = 3 ∧ rebuild? rows = some pair.shape := by
  intro bob pair
  have hgrounded : pair.IsGrounded := by decide
  obtain ⟨order, rows, hperm, -, hlength, -, -, hrebuild, -⟩ := shape_of_listing hgrounded
  exact ⟨hgrounded, by decide, rows, hlength.trans hperm.length_eq, hrebuild⟩

end ChartEntry

/-- Derivations of different forms have different listings, in one parse and in two. -/
theorem Parsing.Reachable.shape_eq {setting : Setting} {tokens tokens' : List Text} {counters counters' : Counters}
    {s s' : State} (h : Reachable setting tokens counters s) (h' : Reachable setting tokens' counters' s')
    {entry other : ChartEntry} (hentry : entry ∈ s.chart.newestFirst) (hother : other ∈ s'.chart.newestFirst)
    (hlisting : entry.listing = other.listing) : entry.shape = other.shape :=
  have hlegible : entry.IsLegible := h.forall_chart (ChartEntry.isInherited_isPlain _).forall_nodes entry hentry
  have hlegible' : other.IsLegible := h'.forall_chart (ChartEntry.isInherited_isPlain _).forall_nodes other hother
  hlegible.shape_eq hlegible' hlisting

end MinimalistGrammar
