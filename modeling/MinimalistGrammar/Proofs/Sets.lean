import MinimalistGrammar.Collection.SortedMap
import MinimalistGrammar.Collection.SortedSet

/-! What is in the sets that the operations on sets make, and what their tests on sets mean. Sets and maps are put
together again from what they list. -/
namespace MinimalistGrammar
namespace SortedSet
variable {α : Type} [Ord α]

theorem eq_of_elements {s t : SortedSet α} (h : s.elements = t.elements) : s = t := by
  cases s
  cases t
  cases h
  rfl

@[simp] theorem not_mem_empty (a : α) : a ∉ (∅ : SortedSet α) := not_holds_nil a

section
variable [Std.TransOrd α]

theorem insertOrdered_of_forall_lt {a : α} {s : List α} (h : ∀ b ∈ s, compare b a = .lt) :
    insertOrdered a s = s ++ [a] := by
  induction s with
  | nil => rfl
  | cons b s ih =>
    obtain ⟨hb, hs⟩ := List.forall_mem_cons.mp h
    rw [insertOrdered, Std.OrientedCmp.gt_of_lt hb]
    exact congrArg (b :: ·) (ih hs)

theorem elements_ofList {values : List α} (h : values.Pairwise fun a b => compare a b = .lt) :
    (ofList values).elements = values := by
  have hinsert (s : SortedSet α) (hs : ∀ a ∈ s.elements, ∀ b ∈ values, compare a b = .lt) :
      (values.foldl insert s).elements = s.elements ++ values := by
    induction values generalizing s with
    | nil => exact (List.append_nil _).symm
    | cons a values ih =>
      obtain ⟨ha, hvalues⟩ := List.pairwise_cons.mp h
      have hinserted : (s.insert a).elements = s.elements ++ [a] :=
        insertOrdered_of_forall_lt fun b hb => hs b hb a List.mem_cons_self
      rw [List.foldl_cons, ih hvalues (s.insert a), hinserted, List.append_assoc, List.singleton_append]
      rw [hinserted]
      refine List.forall_mem_append.mpr ⟨fun b hb c hc => hs b hb c (List.mem_cons_of_mem a hc), ?_⟩
      exact List.forall_mem_singleton.mpr ha
  exact hinsert ∅ fun a ha => nomatch ha

theorem ofList_elements (s : SortedSet α) : ofList s.elements = s :=
  eq_of_elements (elements_ofList s.ordered)

theorem mem_of_mem_elements_foldl_insert {values : List α} {s : SortedSet α} {x : α}
    (h : x ∈ (values.foldl insert s).elements) : x ∈ s.elements ∨ x ∈ values := by
  induction values generalizing s with
  | nil => exact .inl h
  | cons a values ih =>
    rcases ih h with hmade | hlater
    · rcases mem_of_mem_insertOrdered hmade with rfl | hold
      · exact .inr List.mem_cons_self
      · exact .inl hold
    · exact .inr (List.mem_cons_of_mem a hlater)

/-- A set has no other elements than it is made of, also where different values compare equal. -/
theorem mem_of_mem_elements_ofList {values : List α} {x : α} (h : x ∈ (ofList values).elements) : x ∈ values :=
  (mem_of_mem_elements_foldl_insert h).resolve_left fun hnone => nomatch hnone

theorem mem_foldl_insert_iff {values : List α} {s : SortedSet α} {x : α} :
    x ∈ values.foldl insert s ↔ x ∈ s ∨ ∃ a ∈ values, compare x a = .eq := by
  induction values generalizing s with
  | nil => simp
  | cons a values ih =>
    have hcons : (∃ b ∈ a :: values, compare x b = .eq) ↔ compare x a = .eq ∨ ∃ b ∈ values, compare x b = .eq := by
      simp
    rw [List.foldl_cons, ih, mem_insert, hcons, or_assoc]
    exact or_left_comm

theorem exists_of_mem {values : List α} {a : α} (h : a ∈ values) :
    ∃ b ∈ (ofList values).elements, compare a b = .eq :=
  mem_foldl_insert_iff.mpr (.inr ⟨a, h, Std.ReflOrd.compare_self⟩)

end

variable [Std.LawfulEqOrd α]

theorem isDisjoint_iff {s t : SortedSet α} : s.isDisjoint t ↔ ∀ x ∈ s, x ∉ t := by
  simp [isDisjoint, List.all_eq_true, mem_elements]

theorem isSubset_iff {s t : SortedSet α} : s.isSubset t ↔ ∀ x ∈ s, x ∈ t := by
  simp [isSubset, List.all_eq_true, mem_elements]

theorem nodup_elements (s : SortedSet α) : s.elements.Nodup := by
  refine s.ordered.imp fun hlt heq => ?_
  rw [heq, Std.ReflOrd.compare_self] at hlt
  cases hlt

variable [Std.TransOrd α]

theorem mem_insert_iff {s : SortedSet α} {a x : α} : x ∈ s.insert a ↔ x = a ∨ x ∈ s := by
  rw [mem_insert, Std.LawfulEqOrd.compare_eq_iff_eq]

theorem mem_foldl_insert {values : List α} {s : SortedSet α} {x : α} :
    x ∈ values.foldl insert s ↔ x ∈ s ∨ x ∈ values := by
  simp [mem_foldl_insert_iff]

theorem mem_union {s t : SortedSet α} {x : α} : x ∈ s.union t ↔ x ∈ s ∨ x ∈ t := by
  rw [union, mem_foldl_insert, mem_elements]

theorem mem_ofList {values : List α} {x : α} : x ∈ ofList values ↔ x ∈ values := by
  rw [ofList, mem_foldl_insert]
  simp

theorem ext_of_mem_iff {s t : SortedSet α} (h : ∀ x, x ∈ s ↔ x ∈ t) : s = t := by
  have hperm : s.elements.Perm t.elements := by
    refine (List.perm_ext_iff_of_nodup s.nodup_elements t.nodup_elements).mpr fun x => ?_
    rw [mem_elements, mem_elements, h]
  refine eq_of_elements (hperm.eq_of_pairwise (fun a b _ _ hlt hgt => ?_) s.ordered t.ordered)
  rw [Std.OrientedCmp.gt_of_lt hlt] at hgt
  cases hgt

end SortedSet

namespace SortedMap
variable {κ ν : Type} [Ord κ]

theorem eq_of_entries {s t : SortedMap κ ν} (h : s.entries = t.entries) : s = t := by
  cases s
  cases t
  cases h
  rfl

theorem mem_insertOrdered_self (k : κ) (v : ν) (s : List (κ × ν)) : (k, v) ∈ insertOrdered k v s := by
  induction s with
  | nil => exact List.mem_cons_self
  | cons e s ih =>
    unfold insertOrdered
    split
    · exact List.mem_cons_self
    · exact List.mem_cons_self
    · exact List.mem_cons_of_mem e ih

theorem mem_insertOrdered_of_ne [Std.LawfulEqOrd κ] {k : κ} {v : ν} {s : List (κ × ν)} {e : κ × ν} (h : e ∈ s)
    (hne : e.1 ≠ k) : e ∈ insertOrdered k v s := by
  induction s with
  | nil => cases h
  | cons first s ih =>
    unfold insertOrdered
    split
    · exact List.mem_cons_of_mem _ h
    · rename_i heq
      refine List.mem_cons_of_mem _ ((List.mem_cons.mp h).resolve_left ?_)
      rintro rfl
      exact hne (Std.LawfulEqOrd.eq_of_compare heq).symm
    · rcases List.mem_cons.mp h with rfl | h
      · exact List.mem_cons_self
      · exact List.mem_cons_of_mem first (ih h)

variable [Std.TransOrd κ]

theorem nodup_keys (s : SortedMap κ ν) : s.keys.Nodup := by
  refine List.pairwise_map.mpr (s.ordered.imp fun hlt heq => ?_)
  rw [heq, Std.ReflOrd.compare_self] at hlt
  cases hlt

theorem mem_of_mem_entries_insert {s : SortedMap κ ν} {k : κ} {v : ν} {e : κ × ν}
    (h : e ∈ (s.insert k v).entries) : e = (k, v) ∨ e ∈ s.entries :=
  mem_of_mem_insertOrdered h

theorem insertOrdered_of_forall_lt {k : κ} {v : ν} {s : List (κ × ν)} (h : ∀ e ∈ s, compare e.1 k = .lt) :
    insertOrdered k v s = s ++ [(k, v)] := by
  induction s with
  | nil => rfl
  | cons e s ih =>
    obtain ⟨he, hs⟩ := List.forall_mem_cons.mp h
    rw [insertOrdered, Std.OrientedCmp.gt_of_lt he]
    exact congrArg (e :: ·) (ih hs)

theorem entries_ofList {entries : List (κ × ν)} (h : entries.Pairwise fun a b => compare a.1 b.1 = .lt) :
    (ofList entries).entries = entries := by
  have hinsert (s : SortedMap κ ν) (hs : ∀ a ∈ s.entries, ∀ b ∈ entries, compare a.1 b.1 = .lt) :
      (entries.foldl (fun s e => s.insert e.1 e.2) s).entries = s.entries ++ entries := by
    induction entries generalizing s with
    | nil => exact (List.append_nil _).symm
    | cons e entries ih =>
      obtain ⟨he, hentries⟩ := List.pairwise_cons.mp h
      have hinserted : (s.insert e.1 e.2).entries = s.entries ++ [e] :=
        insertOrdered_of_forall_lt fun a ha => hs a ha e List.mem_cons_self
      rw [List.foldl_cons, ih hentries (s.insert e.1 e.2), hinserted, List.append_assoc, List.singleton_append]
      rw [hinserted]
      refine List.forall_mem_append.mpr ⟨fun a ha b hb => hs a ha b (List.mem_cons_of_mem e hb), ?_⟩
      exact List.forall_mem_singleton.mpr he
  exact hinsert ∅ fun e he => nomatch he

theorem ofList_entries (s : SortedMap κ ν) : ofList s.entries = s :=
  eq_of_entries (entries_ofList s.ordered)

/-- Keys that stay different find what they found under other keys. -/
theorem find?_ofList_map {κ' : Type} [Ord κ'] [Std.TransOrd κ'] [Std.LawfulEqOrd κ] [Std.LawfulEqOrd κ'] [DecidableEq κ]
    [DecidableEq κ'] {ρ : κ → κ'} (hρ : Function.Injective ρ) (entries : List (κ × ν)) (k : κ) :
    (ofList (entries.map fun e => (ρ e.1, e.2))).find? (ρ k) = (ofList entries).find? k := by
  have hinsert (s : SortedMap κ ν) (s' : SortedMap κ' ν) (hs : ∀ j, s'.find? (ρ j) = s.find? j) :
      ((entries.map fun e => (ρ e.1, e.2)).foldl (fun s e => s.insert e.1 e.2) s').find? (ρ k) =
        (entries.foldl (fun s e => s.insert e.1 e.2) s).find? k := by
    induction entries generalizing s s' with
    | nil => exact hs k
    | cons e entries ih =>
      refine ih (s.insert e.1 e.2) (s'.insert (ρ e.1) e.2) fun j => ?_
      simp only [find?_insert, hρ.eq_iff, hs]
  exact hinsert ∅ ∅ fun _ => rfl

theorem mem_of_mem_entries_foldl_insert {entries : List (κ × ν)} {s : SortedMap κ ν} {x : κ × ν}
    (h : x ∈ (entries.foldl (fun s e => s.insert e.1 e.2) s).entries) : x ∈ s.entries ∨ x ∈ entries := by
  induction entries generalizing s with
  | nil => exact .inl h
  | cons e entries ih =>
    rcases ih h with hmade | hlater
    · rcases mem_of_mem_entries_insert hmade with rfl | hold
      · exact .inr List.mem_cons_self
      · exact .inl hold
    · exact .inr (List.mem_cons_of_mem e hlater)

theorem mem_of_mem_entries_ofList {entries : List (κ × ν)} {x : κ × ν} (h : x ∈ (ofList entries).entries) :
    x ∈ entries :=
  (mem_of_mem_entries_foldl_insert h).resolve_left fun hnone => nomatch hnone

/-- Entries with distinct keys take each other's place nowhere. -/
theorem mem_entries_foldl_insert [Std.LawfulEqOrd κ] {entries : List (κ × ν)} (hkeys : (entries.map (·.1)).Nodup)
    {s : SortedMap κ ν} {x : κ × ν} (h : x ∈ s.entries ∧ x.1 ∉ entries.map (·.1) ∨ x ∈ entries) :
    x ∈ (entries.foldl (fun s e => s.insert e.1 e.2) s).entries := by
  induction entries generalizing s with
  | nil => exact (h.resolve_right fun hx => nomatch hx).1
  | cons e entries ih =>
    obtain ⟨hfirst, hrest⟩ := List.nodup_cons.mp hkeys
    refine ih hrest ?_
    rcases h with ⟨hold, hnew⟩ | hx
    · obtain ⟨hne, hlater⟩ := List.ne_and_not_mem_of_not_mem_cons hnew
      exact .inl ⟨mem_insertOrdered_of_ne hold hne, hlater⟩
    · rcases List.mem_cons.mp hx with rfl | hx
      · exact .inl ⟨mem_insertOrdered_self x.1 x.2 s.entries, hfirst⟩
      · exact .inr hx

theorem mem_entries_ofList [Std.LawfulEqOrd κ] {entries : List (κ × ν)} (hkeys : (entries.map (·.1)).Nodup)
    {x : κ × ν} (h : x ∈ entries) : x ∈ (ofList entries).entries :=
  mem_entries_foldl_insert hkeys (.inr h)

end SortedMap
end MinimalistGrammar
