/-
No reading is given up.

Not for looking too often, not for a token, a node or a counter that a rule counts on and
that is not there, and not for want of levels or turns: that is what the contracts of the
rules come to at the beginning of a text, where all levels are left and no look was taken.
At the end of a text there is one root.
-/
import ScriptSense.Proofs.Conservation
import ScriptSense.Proofs.Grammar.StatementContracts

set_option autoImplicit false

namespace ScriptSense

namespace Grammar

/-! ## Texts -/

/-- In front of a text everything is ready. -/
theorem ready_initial (f : String → Bool) (tokens : List Token) :
    Ready (rules f (levelsFor (State.initial tokens).rest.length)) 4 100
      (State.initial tokens) := by
  refine ⟨rfl, ?_, Nat.zero_le _⟩
  have hlength : (State.initial tokens).input.length ≤ (State.initial tokens).rest.length := by
    have := List.length_filter_le (!·.isTrivia) ((State.initial tokens).rest.map Token.kind)
    rwa [List.length_map] at this
  rw [turns_rules, levelsFor]
  omega

theorem fault_run_script (f : String → Bool) (tokens : List Token) :
    (run f script tokens).fault = none :=
  script_goes (rules_sound f _) (ready_initial f tokens)

end Grammar

end ScriptSense
