import MinimalistGrammar.Proofs.Except
import MinimalistGrammar.Truth.Evaluation

/-! Truth and falsity. A formula that is false is not true, but need not be the one or the other: a conjunction is
false only if both of its sides are. What closes over events or quantifies leaves no such gap. -/
namespace MinimalistGrammar

/-- Closed over events, openly or as a role, or a quantified conjunction. -/
def Formula.isBivalent : Formula → Bool
  | close _ | internal _ | external _ | and (and (quantifier _) _) _ => true
  | _ => false

namespace Model

/-- To be false is then not to be true, and what is an error for the one is the same error for the other. -/
theorem hasValue_false_of_isBivalent {f : Formula} (h : f.isBivalent) (m : Model) :
    hasValue f m (.truth false) = (hasValue f m (.truth true)).map (!·) := by
  cases f with
  | close | internal | external =>
    simp only [hasValue]
    rfl
  | and left body =>
    cases left with
    | and first restrictor =>
      cases first with
      | quantifier kind => cases restrictor <;> simp only [hasValue] <;> rfl
      | _ => cases h
    | _ => cases h
  | _ => cases h

theorem of_hasValue_and {left right : Formula} (h : (Formula.and left right).isBivalent = false) {m : Model} {v : Value}
    (hand : hasValue (.and left right) m v = .ok true) :
    hasValue left m v = .ok true ∧ hasValue right m v = .ok true := by
  have hprefix (kind : Text) (restrictor : Formula) : left ≠ .and (.quantifier kind) restrictor := by
    rintro rfl
    cases h
  rw [hasValue_and hprefix] at hand
  obtain ⟨holds, hleft, hright⟩ := exists_of_bind_eq_ok hand
  cases holds with
  | false => cases hright
  | true => exact ⟨hleft, hright⟩

/-- What is true is not false. Where there is a gap, one side of the conjunction tells, and so on to a formula without
one or to a predicate, which is not true. -/
theorem hasValue_false_ne_true {f : Formula} {m : Model} (htrue : hasValue f m (.truth true) = .ok true) :
    hasValue f m (.truth false) ≠ .ok true := by
  have hbivalent {g : Formula} (h : g.isBivalent) (hg : hasValue g m (.truth true) = .ok true) :
      hasValue g m (.truth false) ≠ .ok true := by
    rw [hasValue_false_of_isBivalent h, hg]
    exact nofun
  induction f with
  | close | internal | external => exact hbivalent rfl htrue
  | and left right ih _ =>
    cases h : (Formula.and left right).isBivalent with
    | true => exact hbivalent h htrue
    | false => exact fun hfalse => ih (of_hasValue_and h htrue).1 (of_hasValue_and h hfalse).1
  | const | var | indexed | quantifier | foreign =>
    rw [hasValue] at htrue
    cases htrue

/-- Truth values are consistent. No formula is both true and false; and one that closes over events or quantifies is
either, unless its evaluation ends in an error, which is then the same for both values. -/
theorem consistent_hasValue (f : Formula) (m : Model) :
    ¬(hasValue f m (.truth true) = .ok true ∧ hasValue f m (.truth false) = .ok true) ∧
      (f.isBivalent →
        (∃ e, hasValue f m (.truth true) = .error e ∧ hasValue f m (.truth false) = .error e) ∨
          ∃ b, hasValue f m (.truth true) = .ok b ∧ hasValue f m (.truth false) = .ok (!b)) := by
  refine ⟨fun ⟨htrue, hfalse⟩ => hasValue_false_ne_true htrue hfalse, fun h => ?_⟩
  rw [hasValue_false_of_isBivalent h]
  cases hasValue f m (.truth true) with
  | error e => exact .inl ⟨e, rfl, rfl⟩
  | ok b => exact .inr ⟨b, rfl, rfl⟩

/-- One of two girls runs, so that it is false that every girl does. -/
theorem consistent_hasValue_every_girl_runs :
    let m : Model :=
      { entities := [.text "alice", .text "carol"]
        events := [.text "running"]
        assignments := ∅
        predicates := .ofList [("girl", .ofList [.text "alice", .text "carol"]), ("run", .ofList [.text "running"])]
        relations := .ofList [("ext", .ofList [⟨.text "running", .text "carol"⟩])] }
    let f : Formula := .and (.and (.quantifier "every") (.indexed (-1) (.const "girl")))
      (.close (.and (.const "run") (.external (.var (-1)))))
    f.isBivalent ∧ hasValue f m (.truth true) = .ok false ∧ hasValue f m (.truth false) = .ok true := by
  intro m f
  have htrue : hasValue f m (.truth true) = .ok false := rfl
  rcases (consistent_hasValue f m).2 rfl with ⟨e, he, -⟩ | ⟨b, hb, hfalse⟩
  · cases htrue.symm.trans he
  · cases htrue.symm.trans hb
    exact ⟨rfl, htrue, hfalse⟩

end Model
end MinimalistGrammar
