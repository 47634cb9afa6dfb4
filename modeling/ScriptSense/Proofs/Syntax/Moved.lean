/-
Tokens, trees and complaints further on in a text.

Behind more text everything stands further on by the length of it, and nothing else changes:
a text falls into the same tokens wherever it begins (`tokensFrom_add`).
-/
import ScriptSense.Proofs.Lexing
import ScriptSense.Syntax.Problem
import ScriptSense.Syntax.Tree

set_option autoImplicit false

namespace ScriptSense

/-! ## Moved by a number of bytes -/

/-- The span, further on by some bytes. -/
def Span.moved (bytes : Nat) (s : Span) : Span := ⟨s.start + bytes, s.stop + bytes⟩

/-- The token, further on by some bytes. -/
def Token.moved (bytes : Nat) (t : Token) : Token := { t with start := t.start + bytes }

/-- The complaint, further on by some bytes. -/
def Complaint.moved (bytes : Nat) (c : Complaint) : Complaint := ⟨c.problem, c.span.moved bytes⟩

@[simp] theorem Span.moved_point (bytes offset : Nat) :
    (Span.point offset).moved bytes = .point (offset + bytes) := rfl

namespace Token

variable (bytes : Nat) (t : Token)

@[simp] theorem kind_moved : (t.moved bytes).kind = t.kind := rfl

@[simp] theorem text_moved : (t.moved bytes).text = t.text := rfl

@[simp] theorem stop_moved : (t.moved bytes).stop = t.stop + bytes := Nat.add_right_comm ..

@[simp] theorem span_moved : (t.moved bytes).span = t.span.moved bytes := by
  rw [span, stop_moved]
  rfl

end Token

namespace Tree

mutual

/-- The tree, further on by some bytes. -/
def moved (bytes : Nat) : Tree → Tree
  | .leaf t => .leaf (t.moved bytes)
  | .node k s cs => .node k (s.moved bytes) (movedAll bytes cs)

/-- The trees of a list, further on by some bytes. -/
def movedAll (bytes : Nat) : List Tree → List Tree
  | [] => []
  | t :: ts => t.moved bytes :: movedAll bytes ts

end

variable (bytes : Nat)

@[simp] theorem moved_leaf (t : Token) : (leaf t).moved bytes = .leaf (t.moved bytes) := by
  simp [moved]

@[simp] theorem movedAll_eq_map (ts : List Tree) : movedAll bytes ts = ts.map (moved bytes) := by
  induction ts with
  | nil => simp [movedAll]
  | cons t ts ih => simp [movedAll, ih]

@[simp] theorem moved_node (k : NodeKind) (s : Span) (cs : List Tree) :
    (node k s cs).moved bytes = .node k (s.moved bytes) (cs.map (moved bytes)) := by simp [moved]

@[simp] theorem span_moved (t : Tree) : (t.moved bytes).span = t.span.moved bytes := by
  cases t with
  | leaf t => simp [span]
  | node k s cs => simp [span]

end Tree

/-! ## The tokens of a text that begins elsewhere -/

/-- **A text falls into the same tokens wherever it begins.** -/
theorem tokensFrom_add (offset bytes : Nat) (cs : List Char) :
    tokensFrom (offset + bytes) cs = (tokensFrom offset cs).map (Token.moved bytes) := by
  induction hlen : cs.length using Nat.strongRecOn generalizing offset cs with
  | _ n ih =>
    cases cs with
    | nil =>
      rw [tokensFrom, tokensFrom]
      rfl
    | cons c rest =>
      set taken := (c :: rest).take (Scan.next c rest).2
      have hshort : ((c :: rest).drop (Scan.next c rest).2).length < n := by
        have hpos := (Scan.next_sound c rest).pos
        rw [List.length_drop, ← hlen, List.length_cons]
        omega
      rw [tokensFrom_cons, tokensFrom_cons, List.map_cons, Nat.add_right_comm,
        ih _ hshort _ _ rfl]
      rfl

end ScriptSense
