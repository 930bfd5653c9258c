/-! Computations that may fail: what follows if one of several steps succeeds, what a computation gives and with
which errors it fails, and lists that are read back member by member. -/
namespace MinimalistGrammar

theorem exists_of_bind_eq_ok {ε α β : Type} {x : Except ε α} {next : α → Except ε β} {b : β}
    (h : x >>= next = .ok b) : ∃ a, x = .ok a ∧ next a = .ok b := by
  cases x with
  | error e => cases h
  | ok a => exact ⟨a, rfl, h⟩

theorem mapError_bind {ε ε' α β : Type} (made : ε → ε') (x : Except ε α) (next : α → Except ε β) :
    (x >>= next).mapError made = x.mapError made >>= fun a => (next a).mapError made := by
  cases x <;> rfl

theorem eq_ok_of_toOption_eq_some {ε α : Type} {x : Except ε α} {a : α} (h : x.toOption = some a) : x = .ok a := by
  cases x with
  | error e => cases h
  | ok b => exact congrArg _ (Option.some.inj h)

theorem mapM_map_eq_pure_map {m : Type → Type} [Monad m] [LawfulMonad m] {α β γ : Type} {read : β → m γ}
    {write : α → β} {made : α → γ} {s : List α} (h : ∀ a ∈ s, read (write a) = pure (made a)) :
    (s.map write).mapM read = pure (s.map made) := by
  induction s with
  | nil => rfl
  | cons a s ih =>
    obtain ⟨ha, hs⟩ := List.forall_mem_cons.mp h
    rw [List.map_cons, List.mapM_cons, ha, ih hs, pure_bind, pure_bind, List.map_cons]

theorem mapM_map_eq_pure {m : Type → Type} [Monad m] [LawfulMonad m] {α β : Type} {read : β → m α}
    {write : α → β} {s : List α} (h : ∀ a ∈ s, read (write a) = pure a) :
    (s.map write).mapM read = pure s := by
  rw [mapM_map_eq_pure_map h, List.map_id']

/-- The first member at which a step fails makes the whole fail. -/
theorem mapM_append_cons_eq_error {ε α β : Type} {next : α → Except ε β} {before behind : List α} {a : α} {e : ε}
    (hbefore : ∀ b ∈ before, ∃ c, next b = .ok c) (ha : next a = .error e) :
    (before ++ a :: behind).mapM next = .error e := by
  induction before with
  | nil => rw [List.nil_append, List.mapM_cons, ha]; rfl
  | cons b before ih =>
    obtain ⟨⟨c, hc⟩, hrest⟩ := List.forall_mem_cons.mp hbefore
    rw [List.cons_append, List.mapM_cons, hc, ih hrest]
    rfl

theorem exists_of_mem_mapM {α β : Type} {next : β → Option α} {s : List β} {made : List α} (h : s.mapM next = some made)
    {a : α} (ha : a ∈ made) : ∃ b ∈ s, next b = some a := by
  induction s generalizing made with
  | nil =>
    cases h
    cases ha
  | cons b s ih =>
    rw [List.mapM_cons] at h
    obtain ⟨first, hfirst, h⟩ := Option.bind_eq_some_iff.mp h
    obtain ⟨rest, hrest, h⟩ := Option.bind_eq_some_iff.mp h
    cases h
    rcases List.mem_cons.mp ha with rfl | ha
    · exact ⟨b, List.mem_cons_self, hfirst⟩
    · obtain ⟨c, hc, hnext⟩ := ih hrest ha
      exact ⟨c, List.mem_cons_of_mem b hc, hnext⟩

/-- The computation gives a value of one kind, or fails with an error of another. -/
def Yields {ε α : Type} (gives : α → Prop) (fails : ε → Prop) : Except ε α → Prop
  | .ok a => gives a
  | .error e => fails e

namespace Yields
variable {ε α β : Type} {p q : α → Prop} {r : β → Prop} {fails : ε → Prop} {x : Except ε α}

theorem gives (h : Yields p fails x) {a : α} (hx : x = .ok a) : p a := by
  rw [hx] at h
  exact h

theorem fails_of_eq_error (h : Yields p fails x) {e : ε} (hx : x = .error e) : fails e := by
  rw [hx] at h
  exact h

theorem of_forall_eq_ok (h : ∀ a, x = .ok a → p a) : Yields p (fun _ => True) x := by
  cases x with
  | error e => trivial
  | ok a => exact h a rfl

theorem trivially (x : Except ε α) : Yields (fun _ => True) (fun _ => True) x := of_forall_eq_ok fun _ _ => trivial

theorem imp (h : Yields p fails x) (hpq : ∀ a, p a → q a) : Yields q fails x := by
  cases x with
  | error e => exact h
  | ok a => exact hpq a h

theorem imp_fails {fails' : ε → Prop} (h : Yields p fails x) (hfails : ∀ e, fails e → fails' e) :
    Yields p fails' x := by
  cases x with
  | error e => exact hfails e h
  | ok a => exact h

theorem map (h : Yields p fails x) {made : α → β} (hmade : ∀ a, p a → r (made a)) :
    Yields r fails (x.map made) := by
  cases x with
  | error e => exact h
  | ok a => exact hmade a h

theorem mapError {ε' : Type} {fails' : ε' → Prop} (h : Yields p fails x) {made : ε → ε'}
    (hmade : ∀ e, fails e → fails' (made e)) : Yields p fails' (x.mapError made) := by
  cases x with
  | error e => exact hmade e h
  | ok a => exact h

theorem bind (h : Yields p fails x) {next : α → Except ε β} (hnext : ∀ a, p a → Yields r fails (next a)) :
    Yields r fails (x >>= next) := by
  cases x with
  | error e => exact h
  | ok a => exact hnext a h

theorem mapM {s : List β} {next : β → Except ε α} (h : ∀ b ∈ s, Yields p fails (next b)) :
    Yields (fun made => ∀ a ∈ made, p a) fails (s.mapM next) := by
  induction s with
  | nil => exact fun a ha => nomatch ha
  | cons b s ih =>
    obtain ⟨hb, hs⟩ := List.forall_mem_cons.mp h
    rw [List.mapM_cons]
    exact hb.bind fun a ha => (ih hs).bind fun made hmade => List.forall_mem_cons.mpr ⟨ha, hmade⟩

end Yields

end MinimalistGrammar
