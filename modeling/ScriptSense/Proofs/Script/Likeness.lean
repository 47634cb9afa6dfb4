/-
What looks the same means the same.

A lens says what is seen of a name and what of a place; all else in a script is seen as
it is. Two trees may look the same in many ways: they may differ in their layout, or in
the case of letters. What the walk from the tree to the meaning needs of such a likeness
is little. The views of like trees answer like children, and their names and literals
look the same (`Likeness`). Then the walk answers at every step what looks the same, and
leaves behind what looks the same, because names are looked up regardless of case and
places are noted but never looked at.
-/
import ScriptSense.Proofs.Script.Walking
import ScriptSense.Proofs.Syntax.Bare

set_option autoImplicit false

namespace ScriptSense

/-! ## Through a lens -/

/-- **A way to look at scripts**: what is seen of a name, and what of a place. -/
structure Lens where
  /-- What is seen of a name. -/
  word : String → String
  /-- What is seen of a place. -/
  place : Span → Span
  /-- A name stays the name that it is. -/
  folds (name : String) : foldCase (word name) = foldCase name

/-- Names that look the same are one name. -/
theorem Lens.foldCase_eq (l : Lens) {a b : String} (h : l.word a = l.word b) :
    foldCase a = foldCase b := by
  rw [← l.folds a, h, l.folds b]

/-- What is seen of a value. -/
def Literal.through (l : Lens) : Literal → Literal
  | .integer value => .integer value
  | .float value => .float value
  | .string value => .string (l.word value)

/-- A lens leaves the type of a literal. -/
theorem Literal.ty_through (l : Lens) (value : Literal) : (value.through l).ty = value.ty := by
  cases value <;> rfl

mutual

/-- What is seen of an expression. -/
def Expr.through (l : Lens) : Expr → Expr
  | .mk form ty span => .mk (form.through l) ty (l.place span)

/-- What is seen of what an expression computes. -/
def ExprForm.through (l : Lens) : ExprForm → ExprForm
  | .name name symbol => .name (l.word name) symbol
  | .literal value => .literal (value.through l)
  | .unary op operand => .unary op (operand.through l)
  | .binary op left right => .binary op (left.through l) (right.through l)
  | .member op base member => .member op (base.through l) (member.through l)
  | .field name => .field (l.word name)
  | .call name symbol args => .call (l.word name) symbol (Expr.throughAll l args)
  | .lambda blockType scope params body =>
    .lambda (l.word blockType) scope params (body.through l)

/-- What is seen of expressions. -/
def Expr.throughAll (l : Lens) : List Expr → List Expr
  | [] => []
  | e :: es => e.through l :: Expr.throughAll l es

/-- What is seen of an optional expression. -/
def Expr.throughIn (l : Lens) : Option Expr → Option Expr
  | none => none
  | some e => some (e.through l)

/-- What is seen of a block. -/
def Block.through (l : Lens) : Block → Block
  | .mk scope statements => .mk scope (Stmt.throughAll l statements)

/-- What is seen of statements. -/
def Stmt.throughAll (l : Lens) : List Stmt → List Stmt
  | [] => []
  | s :: ss => s.through l :: Stmt.throughAll l ss

/-- What is seen of a statement. -/
def Stmt.through (l : Lens) : Stmt → Stmt
  | .mk form span => .mk (form.through l) (l.place span)

/-- What is seen of what a statement does. -/
def StmtForm.through (l : Lens) : StmtForm → StmtForm
  | .varDecl symbol value => .varDecl symbol (Expr.throughIn l value)
  | .assign target value => .assign (target.through l) (value.through l)
  | .evaluate expression => .evaluate (expression.through l)
  | .branch condition body rest =>
    .branch (condition.through l) (body.through l) (Branch.throughIn l rest)
  | .whileLoop condition body => .whileLoop (condition.through l) (body.through l)
  | .foreachLoop header item collection body =>
    .foreachLoop header (item.through l) (collection.through l) (body.through l)
  | .beginBlock blockType params args body =>
    .beginBlock (l.word blockType) params (Expr.throughAll l args) (body.through l)
  | .leave value => .leave (Expr.throughIn l value)
  | .breakLoop => .breakLoop
  | .continueLoop => .continueLoop
  | .expression expression => .expression (expression.through l)

/-- What is seen of the variable of a loop. -/
def LoopVariable.through (l : Lens) : LoopVariable → LoopVariable
  | .declared symbol => .declared symbol
  | .existing item => .existing (item.through l)

/-- What is seen of a branch. -/
def Branch.through (l : Lens) : Branch → Branch
  | .elseIf condition body rest span =>
    .elseIf (condition.through l) (body.through l) (Branch.throughIn l rest) (l.place span)
  | .otherwise body span => .otherwise (body.through l) (l.place span)

/-- What is seen of an optional branch. -/
def Branch.throughIn (l : Lens) : Option Branch → Option Branch
  | none => none
  | some b => some (b.through l)

end

attribute [simp] Expr.through ExprForm.through Expr.throughAll Expr.throughIn Block.through
  Stmt.throughAll Stmt.through StmtForm.through LoopVariable.through Branch.through
  Branch.throughIn

/-- What is seen of the key of a node. -/
def NodeKey.through (l : Lens) (key : NodeKey) : NodeKey := { key with span := l.place key.span }

/-- What is seen of a symbol. -/
def Symbol.through (l : Lens) (s : Symbol) : Symbol :=
  { s with name := l.word s.name, decl := s.decl.through l, nameSpan := l.place s.nameSpan }

/-- What is seen of a scope. Its symbols are kept under folded names. -/
def Scope.through (l : Lens) (s : Scope) : Scope := { s with node := s.node.through l }

/-- What is seen of scopes and symbols. -/
def ScopeTree.through (l : Lens) (t : ScopeTree) : ScopeTree :=
  ⟨t.scopes.map (Scope.through l), t.symbols.map (Symbol.through l)⟩

/-- **What is seen of a script.** -/
def Script.through (l : Lens) (s : Script) : Script where
  name := l.word s.name
  nameSpan := l.place s.nameSpan
  body := Stmt.throughAll l s.body
  scopes := s.scopes.through l
  external := s.external.map l.word

section Same

variable (l : Lens)

/-- The expressions look the same. -/
abbrev SameExpr (e e' : Expr) : Prop := e.through l = e'.through l

/-- The statements look the same. -/
abbrev SameStmt (s s' : Stmt) : Prop := s.through l = s'.through l

/-- The blocks look the same. -/
abbrev SameBlock (b b' : Block) : Prop := b.through l = b'.through l

/-- The branches look the same. -/
abbrev SameBranch (b b' : Branch) : Prop := b.through l = b'.through l

variable {l}

/-- Expressions look the same when their forms and their places do. -/
theorem sameExpr_mk {form form' : ExprForm} {span span' : Span}
    (h : form.through l = form'.through l) (ty : Ty) (hspan : l.place span = l.place span') :
    SameExpr l (.mk form ty span) (.mk form' ty span') := by
  simp only [SameExpr, Expr.through, h, hspan]

/-- Statements look the same when their forms and their places do. -/
theorem sameStmt_mk {form form' : StmtForm} {span span' : Span}
    (h : form.through l = form'.through l) (hspan : l.place span = l.place span') :
    SameStmt l (.mk form span) (.mk form' span') := by
  simp only [SameStmt, Stmt.through, h, hspan]

/-- Lists of expressions look the same when they do one by one. -/
theorem Expr.throughAll_congr {es es' : List Expr} (h : List.Forall₂ (SameExpr l) es es') :
    throughAll l es = throughAll l es' := by
  induction h with
  | nil => rfl
  | cons h _ ih => rw [throughAll, throughAll, h, ih]

/-- Lists of statements look the same when they do one by one. -/
theorem Stmt.throughAll_congr {ss ss' : List Stmt} (h : List.Forall₂ (SameStmt l) ss ss') :
    throughAll l ss = throughAll l ss' := by
  induction h with
  | nil => rfl
  | cons h _ ih => rw [throughAll, throughAll, h, ih]

/-- Optional expressions look the same when both are missing or both are there and do. -/
theorem Expr.throughIn_congr {o o' : Option Expr} (h : Option.Rel (SameExpr l) o o') :
    throughIn l o = throughIn l o' := by
  cases h with
  | none => rfl
  | some h => rw [throughIn, throughIn, h]

/-- Optional branches look the same when both are missing or both are there and do. -/
theorem Branch.throughIn_congr {o o' : Option Branch} (h : Option.Rel (SameBranch l) o o') :
    throughIn l o = throughIn l o' := by
  cases h with
  | none => rfl
  | some h => rw [throughIn, throughIn, h]

end Same

/-! ## Scopes through a lens -/

namespace ScopeTree

variable (l : Lens) (t : ScopeTree)

/-- A change of one scope may be made before or after the lens. -/
theorem through_modifyScope (id : ScopeId) {f g : Scope → Scope}
    (h : ∀ s, (f s).through l = g (s.through l)) :
    (t.modifyScope id f).through l = (t.through l).modifyScope id g := by
  have hmap : (t.scopes.modify id.index f).map (Scope.through l)
      = (t.scopes.map (Scope.through l)).modify id.index g := by
    refine Array.ext (by simp) fun i hi hi' => ?_
    simp only [Array.getElem_map, Array.getElem_modify]
    split
    · exact h _
    · rfl
  exact congrArg (ScopeTree.mk · _) hmap

/-- A scope is opened under the same number, whatever the lens. -/
theorem through_openScope (parent : ScopeId) (kind : ScopeKind) (node : NodeKey) :
    (t.openScope parent kind node).1 = ((t.through l).openScope parent kind (node.through l)).1
      ∧ (t.openScope parent kind node).2.through l
        = ((t.through l).openScope parent kind (node.through l)).2 := by
  have hsize : (t.through l).scopes.size = t.scopes.size := Array.size_map
  refine ⟨by simp only [openScope, hsize], ?_⟩
  simp only [openScope, hsize]
  rw [through_modifyScope (g := fun s => { s with children := s.children ++ [⟨t.scopes.size⟩] })
    _ _ _ fun s => rfl]
  congr 1
  simp [through, Scope.through]

/-- A symbol is declared under the same number, whatever the lens. -/
theorem through_declare (scope : ScopeId) (symbol : Symbol) :
    (t.declare scope symbol).1 = ((t.through l).declare scope (symbol.through l)).1
      ∧ (t.declare scope symbol).2.through l
        = ((t.through l).declare scope (symbol.through l)).2 := by
  have hsize : (t.through l).symbols.size = t.symbols.size := Array.size_map
  have hinsert : ∀ (m : SymbolTable) (id : SymbolId),
      m.insert (symbol.through l).name id = m.insert symbol.name id := fun m id => by
    have hkey : foldCase (symbol.through l).name = foldCase symbol.name := l.folds symbol.name
    simp only [NameMap.insert, hkey]
  refine ⟨by simp only [declare, hsize], ?_⟩
  simp only [declare, hsize, hinsert]
  rw [through_modifyScope
    (g := fun s => { s with symbols := s.symbols.insert symbol.name ⟨t.symbols.size⟩ })
    _ _ _ fun s => rfl]
  congr 1
  simp [through]

/-- The walk outwards meets the same scopes through a lens. -/
theorem walk_through (steps : Nat) (id : ScopeId) :
    (t.through l).walk steps id = (t.walk steps id).map (Scope.through l) := by
  induction steps generalizing id with
  | zero => rfl
  | succ steps ih =>
    have hscope : (t.through l).scope? id = (t.scope? id).map (Scope.through l) :=
      Array.getElem?_map
    unfold walk
    rw [hscope]
    cases t.scope? id with
    | none => rfl
    | some s =>
      rw [Option.map_some]
      dsimp only
      -- A lens leaves the parents, and the walk goes by them alone.
      have hparent : (s.through l).parent = s.parent := rfl
      rw [hparent]
      cases s.parent with
      | none => rfl
      | some parent =>
        dsimp only
        rw [ih, List.map_cons]

/-- A name is found through a lens where it is found without. -/
theorem resolve?_through (id : ScopeId) (name : String) :
    (t.through l).resolve? id name = t.resolve? id name := by
  have hsize : (t.through l).scopes.size = t.scopes.size := Array.size_map
  rw [resolve?, resolve?, chain, chain, hsize, walk_through, List.findSome?_map]
  rfl

/-- Names are looked up regardless of case. -/
theorem resolve?_congr (id : ScopeId) {name other : String} (h : foldCase name = foldCase other) :
    t.resolve? id name = t.resolve? id other := by
  unfold resolve?
  exact congrArg (List.findSome? · (t.chain id))
    (funext fun s => congrArg (Option.map (Prod.mk s.id)) (s.symbols.find?_congr h))

/-- A lens leaves the type of a symbol. -/
theorem ty_through (id : SymbolId) :
    ((t.through l).symbol? id).map Symbol.ty = (t.symbol? id).map Symbol.ty := by
  have hsymbol : (t.through l).symbol? id = (t.symbol? id).map (Symbol.through l) :=
    Array.getElem?_map
  rw [hsymbol, Option.map_map]
  rfl

end ScopeTree

/-! ## What has been collected -/

namespace Entries

variable {w : String → String} {es es' : List (String × String)} {key value value' : String}

/-- What is seen of entries: their keys, and of their values what is seen of names. -/
def through (w : String → String) (es : List (String × String)) : List (String × String) :=
  es.map fun entry => (entry.1, w entry.2)

/-- A key is found with its value as the lens shows it. -/
theorem get?_through (key : String) (es : List (String × String)) :
    get? key (through w es) = (get? key es).map w := by
  induction es with
  | nil => rfl
  | cons entry es ih =>
    have hcons : through w (entry :: es) = (entry.1, w entry.2) :: through w es := rfl
    rw [hcons, get?, get?, ih]
    split <;> rfl

/-- An entry may be put before or after the lens. -/
theorem through_put (key value : String) (es : List (String × String)) :
    through w (put key value es) = put key (w value) (through w es) := by
  induction es with
  | nil => rfl
  | cons entry es ih =>
    have hcons : ∀ (entry : String × String) es,
        through w (entry :: es) = (entry.1, w entry.2) :: through w es := fun _ _ => rfl
    rw [hcons, put, put]
    split
    · exact hcons _ _
    · rw [hcons, ih]

end Entries

/-- **What has been collected looks the same.** -/
structure Gathered.Same (l : Lens) (g g' : Gathered) : Prop where
  scopes : g.scopes.through l = g'.scopes.through l
  external : Entries.through l.word g.external.entries
    = Entries.through l.word g'.external.entries

namespace Gathered.Same

variable {l : Lens} {g g' : Gathered} (h : Gathered.Same l g g')
include h

/-- Scopes that look the same resolve names that look the same to the same symbol. -/
theorem resolve? (id : ScopeId) {name name' : String} (hname : l.word name = l.word name') :
    g.scopes.resolve? id name = g'.scopes.resolve? id name' := by
  rw [← g.scopes.resolve?_through l, h.scopes, g'.scopes.resolve?_through l]
  exact g'.scopes.resolve?_congr id (l.foldCase_eq hname)

/-- Scopes that look the same give a symbol the same type. -/
theorem ty (id : SymbolId) :
    (g.scopes.symbol? id).map Symbol.ty = (g'.scopes.symbol? id).map Symbol.ty := by
  rw [← g.scopes.ty_through l, h.scopes, g'.scopes.ty_through l]

/-- A name from outside is noted. -/
theorem note {name name' : String} (hname : l.word name = l.word name') :
    Gathered.Same l { g with external := g.external.insertNew name name }
      { g' with external := g'.external.insertNew name' name' } where
  scopes := h.scopes
  external := by
    have hfound : g.external.contains name = g'.external.contains name' := by
      have hget : (g.external.find? name).map l.word = (g'.external.find? name').map l.word := by
        rw [NameMap.find?, NameMap.find?, ← Entries.get?_through, h.external,
          l.foldCase_eq hname, Entries.get?_through]
      rw [NameMap.contains, NameMap.contains, ← Option.isSome_map (f := l.word), hget,
        Option.isSome_map]
    rw [NameMap.insertNew, NameMap.insertNew, hfound]
    split
    · exact h.external
    · change Entries.through l.word (Entries.put (foldCase name) name g.external.entries)
        = Entries.through l.word (Entries.put (foldCase name') name' g'.external.entries)
      rw [Entries.through_put, Entries.through_put, h.external, l.foldCase_eq hname, hname]

/-- The external names that were noted look the same, and stand in the same order. -/
theorem values : g.external.values.map l.word = g'.external.values.map l.word := by
  have hvalues : ∀ m : NameMap String,
      m.values.map l.word = (Entries.through l.word m.entries).map Prod.snd := fun m => by
    rw [NameMap.values, Entries.through, List.map_map, List.map_map]
    rfl
  rw [hvalues, hvalues, h.external]

end Gathered.Same

/-! ## What is there in both, or missing in both -/

section Rel

variable {α α' β : Type} {r : α → α' → Prop} {o : Option α} {o' : Option α'}

/-- Two optional values that are related, with functions that answer the same of them. -/
theorem map_eq_of_rel {f : α → β} {f' : α' → β} (h : Option.Rel r o o')
    (hf : ∀ a a', o = some a → r a a' → f a = f' a') : o.map f = o'.map f' := by
  cases h with
  | none => rfl
  | some h => exact congrArg some (hf _ _ rfl h)

/-- The same where the functions may answer nothing. -/
theorem bind_eq_of_rel {f : α → Option β} {f' : α' → Option β} (h : Option.Rel r o o')
    (hf : ∀ a a', o = some a → r a a' → f a = f' a') : o.bind f = o'.bind f' := by
  cases h with
  | none => rfl
  | some h => exact hf _ _ rfl h

/-- Two optional values that are related, with functions that keep another relation. -/
theorem rel_bind {β' : Type} {q : β → β' → Prop} {f : α → Option β} {f' : α' → Option β'}
    (h : Option.Rel r o o') (hf : ∀ a a', r a a' → Option.Rel q (f a) (f' a')) :
    Option.Rel q (o.bind f) (o'.bind f') := by
  cases h with
  | none => exact .none
  | some h => exact hf _ _ h

end Rel

/-- What holds of what two trees answer holds of the children that they answer. -/
theorem Tree.rel_child {R : Tree → Tree → Prop} {t t' : Tree} {o : Option t.Child}
    {o' : Option t'.Child} (h : Option.Rel R (o.map Subtype.val) (o'.map Subtype.val)) :
    Option.Rel (fun c c' => R c.val c'.val) o o' := by
  cases o with
  | none =>
    cases o' with
    | none => exact .none
    | some => cases h
  | some c =>
    cases o' with
    | none => cases h
    | some c' =>
      cases h with
      | some h => exact .some h

/-! ## Trees that look the same -/

/-- Two names look the same, and so do their places. -/
structure Token.SameName (l : Lens) (m m' : Token) : Prop where
  text : l.word m.text = l.word m'.text
  span : l.place m.span = l.place m'.span

/-- **A likeness of trees**: the views of like trees answer what looks the same. No view asks
for what was set aside. -/
structure Likeness (l : Lens) where
  /-- The trees look the same. -/
  Same : Tree → Tree → Prop
  kind {t t' : Tree} (h : Same t t') : t.kind = t'.kind
  span {t t' : Tree} (h : Same t t') : l.place t.span = l.place t'.span
  nodeWhere? {t t' : Tree} (h : Same t t') (p : NodeKind → Bool) (hp : p .error = false) :
    Option.Rel (fun c c' => Same c.val c'.val) (t.nodeWhere? p) (t'.nodeWhere? p)
  nodesWhere {t t' : Tree} (h : Same t t') (p : NodeKind → Bool) (hp : p .error = false) :
    List.Forall₂ (fun c c' => Same c.val c'.val) (t.nodesWhere p) (t'.nodesWhere p)
  nodeBefore? {t t' : Tree} {q : TokenKind → Bool} (h : Same t t')
    (hq : ∀ k, q k = true → k.isSignificant = true) (p : NodeKind → Bool)
    (hp : p .error = false) :
    Option.Rel (fun c c' => Same c.val c'.val) (t.nodeBefore? (t.tokenWhere? q) p)
      (t'.nodeBefore? (t'.tokenWhere? q) p)
  nodeAfter? {t t' : Tree} {q : TokenKind → Bool} (h : Same t t')
    (hq : ∀ k, q k = true → k.isSignificant = true) (p : NodeKind → Bool)
    (hp : p .error = false) :
    Option.Rel (fun c c' => Same c.val c'.val) (t.nodeAfter? (t.tokenWhere? q) p)
      (t'.nodeAfter? (t'.tokenWhere? q) p)
  tokenKind {t t' : Tree} {q : TokenKind → Bool} (h : Same t t')
    (hq : ∀ k, q k = true → k.isSignificant = true) :
    (t.tokenWhere? q).map Token.kind = (t'.tokenWhere? q).map Token.kind
  name {t t' : Tree} (h : Same t t') :
    Option.Rel (Token.SameName l) (View.Identifier.token? t) (View.Identifier.token? t')
  literal {t t' : Tree} (h : Same t t') :
    ((View.Literal.token? t).bind Literal.ofToken?).map (Literal.through l)
      = ((View.Literal.token? t').bind Literal.ofToken?).map (Literal.through l)

namespace Likeness

variable {l : Lens} (L : Likeness l) {t t' : Tree}

/-- Two children look the same. -/
def SameChild (c : t.Child) (c' : t'.Child) : Prop := L.Same c.val c'.val

variable {L}

namespace Same

variable (h : L.Same t t')
include h

/-- The trees are tokens both, or nodes of one kind. -/
theorem forms : (∃ m m', t = .leaf m ∧ t' = .leaf m')
    ∨ ∃ kind span span' cs cs', t = .node kind span cs ∧ t' = .node kind span' cs' := by
  have hkind := L.kind h
  cases t with
  | leaf m =>
    cases t' with
    | leaf m' => exact .inl ⟨m, m', rfl, rfl⟩
    | node => cases hkind
  | node kind span cs =>
    cases t' with
    | leaf m' => cases hkind
    | node kind' span' cs' =>
      obtain rfl : kind = kind' := ElementKind.node.inj hkind
      exact .inr ⟨kind, span, span', cs, cs', rfl, rfl⟩

/-- Trees that look the same are nodes of the same kinds. -/
theorem isNode (p : NodeKind → Bool) : t.isNode p = t'.isNode p :=
  congrArg (ElementKind.isNode p) (L.kind h)

/-- Identifiers that look the same have texts that do. -/
theorem text : l.word (View.Identifier.text t) = l.word (View.Identifier.text t') := by
  have hname := L.name h
  unfold View.Identifier.text
  generalize View.Identifier.token? t = m, View.Identifier.token? t' = m' at hname
  cases hname with
  | none => rfl
  | some hname => exact hname.text

/-- Trees that look the same are keys of scopes that do, or neither is a key. -/
theorem key : Option.Rel (fun n n' : NodeKey => n.through l = n'.through l) t.key? t'.key? := by
  have hspan := L.span h
  rcases h.forms with ⟨m, m', rfl, rfl⟩ | ⟨kind, span, span', cs, cs', rfl, rfl⟩
  · exact .none
  · exact .some (congrArg (NodeKey.mk kind) hspan)

/-- What a token is taken for depends on its kind only. -/
theorem bind_kind {α : Type} {q : TokenKind → Bool}
    (hq : ∀ k, q k = true → k.isSignificant = true) (f : TokenKind → Option α) :
    ((t.tokenWhere? q).bind fun m => f m.kind) = (t'.tokenWhere? q).bind fun m => f m.kind := by
  have hsplit : ∀ u : Tree, ((u.tokenWhere? q).bind fun m => f m.kind)
      = ((u.tokenWhere? q).map Token.kind).bind f := fun u => by rw [Option.bind_map]; rfl
  rw [hsplit, hsplit, L.tokenKind h hq]

end Same

end Likeness

namespace Lower

variable {α α' β β' : Type} {l : Lens} {L : Likeness l}

/-! ## Steps that answer the same -/

/-- **Two steps agree**: where what has been collected before looks the same, they answer
what looks the same and leave what looks the same behind. -/
def Agree (l : Lens) (r : α → α' → Prop) (m : Lower α) (m' : Lower α') : Prop :=
  ∀ g g' : Gathered, g.Same l g' →
    Option.Rel r (m.after g).1 (m'.after g').1 ∧ (m.after g).2.Same l (m'.after g').2

namespace Agree

variable {r : α → α' → Prop} {q : β → β' → Prop} {m : Lower α} {m' : Lower α'}
  {f : α → Lower β} {f' : α' → Lower β'}

/-- Answers that look the same. -/
theorem pure {a : α} {a' : α'} (h : r a a') : Agree l r (Pure.pure a) (Pure.pure a') :=
  fun _ _ hg => ⟨.some h, hg⟩

/-- Both steps find nothing. -/
theorem failure : Agree l r (failure : Lower α) (failure : Lower α') := fun _ _ hg => ⟨.none, hg⟩

/-- Two steps that agree, after each other. -/
theorem bind (hm : Agree l r m m') (hf : ∀ a a', r a a' → Agree l q (f a) (f' a')) :
    Agree l q (m >>= f) (m' >>= f') := by
  intro g g' hg
  obtain ⟨hanswer, hleft⟩ := hm g g' hg
  rw [after_bind, after_bind]
  generalize after m g = x, after m' g' = x' at hanswer hleft
  obtain ⟨o, g⟩ := x
  obtain ⟨o', g'⟩ := x'
  cases hanswer with
  | none => exact ⟨.none, hleft⟩
  | some ha => exact hf _ _ ha g g' hleft

/-- What is there in both, or missing in both. -/
theorem given {o : Option α} {o' : Option α'} (ho : Option.Rel r o o')
    (hf : ∀ a a', r a a' → Agree l q (f a) (f' a')) :
    Agree l q (Lower.given o >>= f) (Lower.given o' >>= f') := by
  refine bind (r := r) (fun g g' hg => ⟨?_, hg⟩) hf
  exact ho

/-- A value that is given on both sides alike. -/
theorem givenSame {o o' : Option α} {f' : α → Lower β'} (ho : o = o')
    (hf : ∀ a, Agree l q (f a) (f' a)) : Agree l q (Lower.given o >>= f) (Lower.given o' >>= f') := by
  subst ho
  cases o with
  | none => exact fun _ _ hg => ⟨.none, hg⟩
  | some a => exact hf a

/-- Less may be asked of the answers. -/
theorem mono {r' : α → α' → Prop} (hm : Agree l r m m') (h : ∀ a a', r a a' → r' a a') :
    Agree l r' m m' := by
  intro g g' hg
  obtain ⟨hanswer, hleft⟩ := hm g g' hg
  refine ⟨?_, hleft⟩
  generalize (after m g).1 = o, (after m' g').1 = o' at hanswer
  cases hanswer with
  | none => exact .none
  | some ha => exact .some (h _ _ ha)

/-- The answers may be changed on both sides. -/
theorem map {h : α → β} {h' : α' → β'} (hm : Agree l r m m') (hq : ∀ a a', r a a' → q (h a) (h' a')) :
    Agree l q (h <$> m) (h' <$> m') := by
  intro g g' hg
  obtain ⟨hanswer, hleft⟩ := hm g g' hg
  rw [after_map, after_map]
  refine ⟨?_, hleft⟩
  generalize (after m g).1 = o, (after m' g').1 = o' at hanswer
  cases hanswer with
  | none => exact .none
  | some ha => exact .some (hq _ _ ha)

/-- A step that may be left out is left out on both sides or on neither. -/
theorem attempt (hm : Agree l r m m') :
    Agree l (Option.Rel r) (Lower.attempt m) (Lower.attempt m') := by
  intro g g' hg
  rw [after_attempt, after_attempt]
  obtain ⟨hanswer, hleft⟩ := hm g g' hg
  exact ⟨.some hanswer, hleft⟩

/-- A choice that is made alike on both sides. -/
theorem ite {c c' : Bool} {n : Lower α} {n' : Lower α'} (hc : c = c') (h : Agree l r m m')
    (h' : Agree l r n n') : Agree l r (if c then m else n) (if c' then m' else n') := by
  subst hc
  cases c
  · exact h'
  · exact h

/-- What may be missing is gone on with, found or not. -/
theorem optional {t t' : Tree} {o : Option t.Child} {o' : Option t'.Child} {start : Lower α}
    {start' : Lower α'} {step : t.Child → Lower α} {step' : t'.Child → Lower α'} :
    Option.Rel L.SameChild o o' → Agree l r start start' →
    (∀ a a', L.SameChild a a' → Agree l r (step a) (step' a')) →
    (∀ x x', r x x' → Agree l q (f x) (f' x')) →
    Agree l q
      (match o with
        | none => start >>= f
        | some a => step a >>= f)
      (match o' with
        | none => start' >>= f'
        | some a => step' a >>= f') := by
  intro ho hstart hstep hnext
  cases ho with
  | none => exact bind hstart hnext
  | some h => exact bind (hstep _ _ h) hnext

/-- The elements of a list, one after the other. -/
theorem mapM {as : List α} {as' : List α'} (has : List.Forall₂ r as as')
    (hf : ∀ a a', r a a' → Agree l q (f a) (f' a')) :
    Agree l (List.Forall₂ q) (as.mapM f) (as'.mapM f') := by
  induction has with
  | nil => exact pure .nil
  | cons h _ ih =>
    rw [List.mapM_cons, List.mapM_cons]
    exact bind (hf _ _ h) fun _ _ hb => bind ih fun _ _ hbs => pure (.cons hb hbs)

/-- Steps over lists of which the members look the same one by one. -/
theorem each {as : List α} {as' : List α'} (has : List.Forall₂ r as as')
    (hf : ∀ a a', r a a' → Agree l q (f a) (f' a')) :
    Agree l (List.Forall₂ q) (as.filterMapM fun a => Lower.attempt (f a))
      (as'.filterMapM fun a => Lower.attempt (f' a)) := by
  induction has with
  | nil => exact pure .nil
  | cons h _ ih =>
    rw [List.filterMapM_cons, List.filterMapM_cons]
    refine bind (hf _ _ h).attempt fun o o' ho => ?_
    cases ho with
    | none => exact ih
    | some hb => exact bind ih fun _ _ hbs => pure (.cons hb hbs)

/-! ### Names -/

/-- The same scope is opened on both sides. -/
theorem openScope (around : ScopeId) (kind : ScopeKind) {t t' : Tree} (h : L.Same t t') :
    Agree l (· = ·) (Lower.openScope around kind t) (Lower.openScope around kind t') := by
  refine given h.key fun n n' hn => ?_
  intro g g' hg
  obtain ⟨hid, hleft⟩ := g.scopes.through_openScope l around kind n
  obtain ⟨hid', hleft'⟩ := g'.scopes.through_openScope l around kind n'
  rw [hg.scopes, hn] at hid hleft
  exact ⟨.some (hid.trans hid'.symm), ⟨hleft.trans hleft'.symm, hg.external⟩⟩

/-- The same symbol is declared on both sides, under names and at places that look the same. -/
theorem declare (scope : ScopeId) {t t' : Tree} (h : L.Same t t') :
    Agree l (· = ·) (Lower.declare scope t) (Lower.declare scope t') := by
  refine given (L.nodeWhere? h (· == .name) rfl) fun name name' hname => ?_
  refine given (L.name hname) fun ident ident' hident => given h.key fun n n' hn => ?_
  have hty := h.bind_kind TokenKind.isSignificant_of_isTypeName Ty.ofToken?
  intro g g' hg
  set ty := ((View.VarDecl.typeToken? t).bind fun word => Ty.ofToken? word.kind).getD .unknown
    with hty'
  have hsame : ((View.VarDecl.typeToken? t').bind fun word => Ty.ofToken? word.kind).getD .unknown
      = ty := congrArg (·.getD .unknown) hty.symm
  -- Both symbols are declared in the same scope, so they get the same number.
  obtain ⟨hid, hleft⟩ :=
    g.scopes.through_declare l scope ⟨ident.text, .variable, ty, n, ident.span⟩
  obtain ⟨hid', hleft'⟩ :=
    g'.scopes.through_declare l scope ⟨ident'.text, .variable, ty, n', ident'.span⟩
  rw [hsame]
  have hsymbol : Symbol.through l ⟨ident.text, .variable, ty, n, ident.span⟩
      = Symbol.through l ⟨ident'.text, .variable, ty, n', ident'.span⟩ := by
    simp only [Symbol.through, hident.text, hident.span, hn]
  rw [hg.scopes, hsymbol] at hid hleft
  exact ⟨.some (hid.trans hid'.symm), ⟨hleft.trans hleft'.symm, hg.external⟩⟩

/-- A name is looked up, and the same symbol is found on both sides. -/
theorem symbolOf? (scope : ScopeId) {name name' : String} (hname : l.word name = l.word name') :
    Agree l (· = ·) (Lower.symbolOf? scope name) (Lower.symbolOf? scope name') :=
  fun _ _ hg => ⟨.some (congrArg (Option.map Prod.snd) (hg.resolve? scope hname)), hg⟩

/-- A name that is not found is noted as external on both sides. -/
theorem symbolOrOutside (scope : ScopeId) {name name' : String}
    (hname : l.word name = l.word name') :
    Agree l (· = ·) (Lower.symbolOrOutside scope name) (Lower.symbolOrOutside scope name') := by
  refine bind (symbolOf? scope hname) fun symbol _ hsymbol => ?_
  subst hsymbol
  have hnote : Agree l (· = ·)
      (modify fun s => { s with external := s.external.insertNew name name } : Lower PUnit)
      (modify fun s => { s with external := s.external.insertNew name' name' }) :=
    fun _ _ hg => ⟨.some rfl, hg.note hname⟩
  exact ite rfl (bind hnote fun _ _ _ => pure rfl) (pure rfl)

/-- A use of a name has the same symbol and the same type on both sides. -/
theorem nameUse (scope : ScopeId) {t t' : Tree} (h : L.Same t t') :
    Agree l (SameExpr l) (Lower.nameUse scope t) (Lower.nameUse scope t') := by
  have hform (symbol : Option SymbolId) :
      (ExprForm.name (View.Identifier.text t) symbol).through l
        = (ExprForm.name (View.Identifier.text t') symbol).through l := by
    simp only [ExprForm.through, h.text]
  unfold Lower.nameUse
  refine bind (symbolOrOutside scope h.text) fun symbol _ hsymbol => ?_
  subst hsymbol
  cases symbol with
  | none => exact pure (sameExpr_mk (hform none) _ (L.span h))
  | some id =>
    intro g g' hg
    refine ⟨.some ?_, hg⟩
    rw [← hg.ty id]
    exact sameExpr_mk (hform (some id)) _ (L.span h)

/-- The parameters are the same symbols on both sides. -/
theorem params (scope : ScopeId) {t t' : Tree} {o : Option t.Child} {o' : Option t'.Child}
    (ho : Option.Rel L.SameChild o o') :
    Agree l (· = ·) (Lower.params scope (o.map Subtype.val))
      (Lower.params scope (o'.map Subtype.val)) := by
  cases ho with
  | none => exact pure rfl
  | some h =>
    refine (each (L.nodesWhere h NodeKind.isVariable rfl) fun c c' hc => ?_).mono
      fun ids ids' hids => List.forall₂_eq_eq_eq ▸ hids
    refine ite (Likeness.Same.isNode hc _) (declare scope hc) ?_
    refine bind (symbolOf? scope (Likeness.Same.text hc)) fun symbol _ hsymbol => ?_
    subst hsymbol
    cases symbol with
    | none => exact failure
    | some id => exact pure rfl

end Agree

/-! ## The walk over two trees -/

/-- **Two trees mean what looks the same**: at any place the walk answers what looks the same
for both. -/
structure Meet (l : Lens) (t t' : Tree) : Prop where
  expr (scope : ScopeId) : Agree l (SameExpr l) (Lower.expr scope t) (Lower.expr scope t')
  exprs (scope : ScopeId) :
    Agree l (List.Forall₂ (SameExpr l)) (Lower.exprs scope t) (Lower.exprs scope t')
  block (scope : ScopeId) : Agree l (SameBlock l) (Lower.block scope t) (Lower.block scope t')
  statement (scope : ScopeId) :
    Agree l (SameStmt l) (Lower.statement scope t) (Lower.statement scope t')
  branch (scope : ScopeId) : Agree l (SameBranch l) (Lower.branch scope t) (Lower.branch scope t')

section Forms

variable {t t' : Tree} {scope : ScopeId} (h : L.Same t t')
  (ih : ∀ {c : t.Child} {c' : t'.Child}, L.SameChild c c' → Meet l c.val c'.val)
include h

/-- A name is a use of it on both sides. -/
theorem agree_name (hkind : t.kind = .node .nameRef) :
    Agree l (SameExpr l) (Lower.expr scope t) (Lower.expr scope t') := by
  have hkind' := (L.kind h).symm.trans hkind
  rw [Lower.expr, Lower.expr, hkind, hkind']
  exact .nameUse scope h

/-- A literal has the same value on both sides, or is rejected on both. -/
theorem agree_literal (hkind : t.kind = .node .literal) :
    Agree l (SameExpr l) (Lower.expr scope t) (Lower.expr scope t') := by
  have hkind' := (L.kind h).symm.trans hkind
  rw [Lower.expr, Lower.expr, hkind, hkind']
  have hvalue := L.literal h
  generalize (View.Literal.token? t).bind Literal.ofToken? = v,
    (View.Literal.token? t').bind Literal.ofToken? = v' at hvalue
  refine .given (r := fun v v' : Literal => v.through l = v'.through l) ?_ fun v v' hv => ?_
  · cases v <;> cases v' <;> simp only [Option.map_none, Option.map_some, reduceCtorEq,
      Option.some.injEq] at hvalue
    · exact .none
    · exact .some hvalue
  · have hty : v.ty = v'.ty := by rw [← v.ty_through l, hv, v'.ty_through l]
    rw [hty]
    exact .pure (sameExpr_mk (by simp only [ExprForm.through, hv]) _ (L.span h))

include ih

/-- A parenthesis means what is inside of it. -/
theorem agree_paren (hkind : t.kind = .node .parenExpr) :
    Agree l (SameExpr l) (Lower.expr scope t) (Lower.expr scope t') := by
  have hkind' := (L.kind h).symm.trans hkind
  rw [Lower.expr, Lower.expr, hkind, hkind']
  exact .given (L.nodeWhere? h _ rfl) fun c c' hc => (ih hc).expr scope

/-- A sign is the same on both sides. -/
theorem agree_unary (hkind : t.kind = .node .unaryExpr) :
    Agree l (SameExpr l) (Lower.expr scope t) (Lower.expr scope t') := by
  have hkind' := (L.kind h).symm.trans hkind
  have hop := h.bind_kind TokenKind.isSignificant_of_isOperator UnaryOp.ofToken?
  rw [Lower.expr, Lower.expr, hkind, hkind']
  refine .givenSame hop fun op => .given (L.nodeWhere? h _ rfl) fun c c' hc => ?_
  exact ((ih hc).expr scope).bind fun e e' he =>
    .pure (sameExpr_mk (by simp only [ExprForm.through, he]) _ (L.span h))

/-- An operator is the same on both sides. -/
theorem agree_binary (hkind : t.kind = .node .binExpr) :
    Agree l (SameExpr l) (Lower.expr scope t) (Lower.expr scope t') := by
  have hkind' := (L.kind h).symm.trans hkind
  have hop := h.bind_kind TokenKind.isSignificant_of_isOperator BinaryOp.ofToken?
  have hleft := L.nodeBefore? h TokenKind.isSignificant_of_isOperator NodeKind.isExpression rfl
  have hright := L.nodeAfter? h TokenKind.isSignificant_of_isOperator NodeKind.isExpression rfl
  rw [Lower.expr, Lower.expr, hkind, hkind']
  refine .givenSame hop fun op => .given hleft fun a a' ha => ?_
  refine ((ih ha).expr scope).bind fun e e' he => .given hright fun r r' hr => ?_
  exact ((ih hr).expr scope).bind fun d d' hd =>
    .pure (sameExpr_mk (by simp only [ExprForm.through, he, hd]) _ (L.span h))

/-- An access is of the same form on both sides. -/
theorem agree_member (hkind : t.kind = .node .memberExpr) :
    Agree l (SameExpr l) (Lower.expr scope t) (Lower.expr scope t') := by
  have hkind' := (L.kind h).symm.trans hkind
  have hop := h.bind_kind TokenKind.isSignificant_of_isAccess MemberOp.ofToken?
  have hbase := L.nodeBefore? h TokenKind.isSignificant_of_isAccess NodeKind.isExpression rfl
  have hmember := L.nodeAfter? h TokenKind.isSignificant_of_isAccess NodeKind.isExpression rfl
  rw [Lower.expr, Lower.expr, hkind, hkind']
  refine .givenSame hop fun op => .given hbase fun b b' hb => ?_
  refine ((ih hb).expr scope).bind fun e e' he => .given hmember fun m m' hm => ?_
  have hrest (d d' : Expr) (hd : SameExpr l d d') : Agree l (SameExpr l)
      (pure (.mk (.member op e d) .unknown t.span))
      (pure (.mk (.member op e' d') .unknown t'.span)) :=
    .pure (sameExpr_mk (by simp only [ExprForm.through, he, hd]) _ (L.span h))
  refine .ite (by rw [Likeness.Same.isNode hm]) ?_ (((ih hm).expr scope).bind hrest)
  refine .bind (.pure (sameExpr_mk ?_ _ (L.span hm))) hrest
  simp only [ExprForm.through, Likeness.Same.text hm]

/-- A call looks up its name before its arguments, on both sides. -/
theorem agree_call (hkind : t.kind = .node .funcExpr) :
    Agree l (SameExpr l) (Lower.expr scope t) (Lower.expr scope t') := by
  have hkind' := (L.kind h).symm.trans hkind
  rw [Lower.expr, Lower.expr, hkind, hkind']
  refine .given (L.nodeWhere? h (· == .nameRef) rfl) fun c c' hc => ?_
  have htext := Likeness.Same.text hc
  refine .bind (.symbolOrOutside scope htext) fun symbol _ hsymbol => ?_
  subst hsymbol
  refine .optional (r := List.Forall₂ (SameExpr l)) (L.nodeWhere? h (· == .argList) rfl)
    (.pure .nil) (fun c c' hc => (ih hc).exprs scope) fun args args' hargs => ?_
  exact .pure (sameExpr_mk
    (by simp only [ExprForm.through, htext, Expr.throughAll_congr hargs]) _ (L.span h))

/-- A lambda opens the same scope on both sides. -/
theorem agree_lambda (hkind : t.kind = .node .lambdaExpr) :
    Agree l (SameExpr l) (Lower.expr scope t) (Lower.expr scope t') := by
  have hkind' := (L.kind h).symm.trans hkind
  rw [Lower.expr, Lower.expr, hkind, hkind']
  refine .given (L.nodeWhere? h (· == .name) rfl) fun c c' hc => ?_
  have htext := Likeness.Same.text hc
  refine .bind (.openScope scope .lambdaParams h) fun own _ hown => ?_
  subst hown
  refine .bind (.params own (L.nodeWhere? h _ rfl)) fun symbols _ hsymbols => ?_
  subst hsymbols
  refine .given (L.nodeWhere? h _ rfl) fun body body' hbody => ?_
  exact ((ih hbody).block own).bind fun b b' hb =>
    .pure (sameExpr_mk (by simp only [ExprForm.through, htext, hb]) _ (L.span h))

/-- Arguments look the same one by one. -/
theorem agree_exprs :
    Agree l (List.Forall₂ (SameExpr l)) (Lower.exprs scope t) (Lower.exprs scope t') := by
  rw [Lower.exprs, Lower.exprs]
  exact .mapM (L.nodesWhere h _ rfl) fun c c' hc => (ih hc).expr scope

/-- A block opens the same scope on both sides. -/
theorem agree_block :
    Agree l (SameBlock l) (Lower.block scope t) (Lower.block scope t') := by
  rw [Lower.block, Lower.block]
  refine .bind (.openScope scope .block h) fun own _ hown => ?_
  subst hown
  refine .bind (.each (L.nodesWhere h _ rfl) fun c c' hc => (ih hc).statement own)
    fun ss ss' hss => ?_
  exact .pure (congrArg (Block.mk own) (Stmt.throughAll_congr hss))

/-! ### Statements -/

/-- A declaration goes through its value first, on both sides. -/
theorem agree_varDecl (hkind : t.kind = .node .varDeclStmt) :
    Agree l (SameStmt l) (Lower.statement scope t) (Lower.statement scope t') := by
  have hkind' := (L.kind h).symm.trans hkind
  rw [Lower.statement, Lower.statement, hkind, hkind']
  refine .optional (L.nodeWhere? h NodeKind.isExpression rfl) (.pure .none)
    (fun c c' hc => ((ih hc).expr scope).attempt) fun value value' hvalue =>
      .given (L.nodeWhere? h _ rfl) fun d d' hd => ?_
  refine .bind (.declare scope hd) fun symbol _ hsymbol => ?_
  subst hsymbol
  exact .pure (sameStmt_mk (by simp only [StmtForm.through, Expr.throughIn_congr hvalue]) (L.span h))

/-- An assignment goes through its target first. -/
theorem agree_assign (hkind : t.kind = .node .setStmt) :
    Agree l (SameStmt l) (Lower.statement scope t) (Lower.statement scope t') := by
  have hkind' := (L.kind h).symm.trans hkind
  have hto := TokenKind.isSignificant_of_beq .kwTo rfl
  have htarget := L.nodeBefore? h hto NodeKind.isExpression rfl
  have hvalue := L.nodeAfter? h hto NodeKind.isExpression rfl
  rw [Lower.statement, Lower.statement, hkind, hkind']
  refine .given htarget fun c c' hc => ((ih hc).expr scope).bind fun e e' he => ?_
  exact .given hvalue fun c c' hc => ((ih hc).expr scope).bind fun d d' hd =>
    .pure (sameStmt_mk (by simp only [StmtForm.through, he, hd]) (L.span h))

/-- An assignment by an operator. -/
theorem agree_evaluate (hkind : t.kind = .node .letStmt) :
    Agree l (SameStmt l) (Lower.statement scope t) (Lower.statement scope t') := by
  have hkind' := (L.kind h).symm.trans hkind
  rw [Lower.statement, Lower.statement, hkind, hkind']
  exact .given (L.nodeWhere? h _ rfl) fun c c' hc => ((ih hc).expr scope).bind fun e e' he =>
    .pure (sameStmt_mk (by simp only [StmtForm.through, he]) (L.span h))

/-- An expression in the place of a statement. -/
theorem agree_expression (hkind : t.kind = .node .exprStmt) :
    Agree l (SameStmt l) (Lower.statement scope t) (Lower.statement scope t') := by
  have hkind' := (L.kind h).symm.trans hkind
  rw [Lower.statement, Lower.statement, hkind, hkind']
  exact .given (L.nodeWhere? h _ rfl) fun c c' hc => ((ih hc).expr scope).bind fun e e' he =>
    .pure (sameStmt_mk (by simp only [StmtForm.through, he]) (L.span h))

/-- A condition has the same branches on both sides. -/
theorem agree_if (hkind : t.kind = .node .ifStmt) :
    Agree l (SameStmt l) (Lower.statement scope t) (Lower.statement scope t') := by
  have hkind' := (L.kind h).symm.trans hkind
  rw [Lower.statement, Lower.statement, hkind, hkind']
  refine .given (L.nodeWhere? h _ rfl) fun c c' hc => ((ih hc).expr scope).bind fun e e' he => ?_
  refine .given (L.nodeWhere? h _ rfl) fun c c' hc => ((ih hc).block scope).bind fun b b' hb => ?_
  refine .optional (r := Option.Rel (SameBranch l))
    (L.nodeWhere? h NodeKind.isBranch rfl) (.pure .none)
    (fun c c' hc => ((ih hc).branch scope).map fun _ _ hr => .some hr) fun rest rest' hrest => ?_
  refine .pure (sameStmt_mk ?_ (L.span h))
  simp only [StmtForm.through, he, hb, Branch.throughIn_congr hrest]

/-- A loop has the same condition and the same block. -/
theorem agree_while (hkind : t.kind = .node .whileStmt) :
    Agree l (SameStmt l) (Lower.statement scope t) (Lower.statement scope t') := by
  have hkind' := (L.kind h).symm.trans hkind
  rw [Lower.statement, Lower.statement, hkind, hkind']
  refine .given (L.nodeWhere? h _ rfl) fun c c' hc => ((ih hc).expr scope).bind fun e e' he => ?_
  exact .given (L.nodeWhere? h _ rfl) fun c c' hc => ((ih hc).block scope).bind fun b b' hb =>
    .pure (sameStmt_mk (by simp only [StmtForm.through, he, hb]) (L.span h))

/-- A return has a value on both sides or on neither. -/
theorem agree_leave (hkind : t.kind = .node .returnStmt) :
    Agree l (SameStmt l) (Lower.statement scope t) (Lower.statement scope t') := by
  have hkind' := (L.kind h).symm.trans hkind
  rw [Lower.statement, Lower.statement, hkind, hkind']
  exact .optional (r := Option.Rel (SameExpr l)) (L.nodeWhere? h NodeKind.isExpression rfl)
    (.pure .none) (fun c c' hc => ((ih hc).expr scope).map fun _ _ he => .some he)
    fun value value' hvalue =>
      .pure (sameStmt_mk (by simp only [StmtForm.through, Expr.throughIn_congr hvalue]) (L.span h))

/-- A loop over an array declares its variable on both sides or refers to one on both. -/
theorem agree_foreach (hkind : t.kind = .node .foreachStmt) :
    Agree l (SameStmt l) (Lower.statement scope t) (Lower.statement scope t') := by
  have hkind' := (L.kind h).symm.trans hkind
  have harrow := TokenKind.isSignificant_of_beq .lArrow rfl
  have hitem := L.nodeBefore? h harrow NodeKind.isVariable rfl
  have hcollection := L.nodeAfter? h harrow NodeKind.isExpression rfl
  rw [Lower.statement, Lower.statement, hkind, hkind']
  refine .given hcollection fun c c' hc => ((ih hc).expr scope).bind fun e e' he => ?_
  refine .bind (.openScope scope .foreachHeader h) fun header _ hheader => ?_
  subst hheader
  refine .given hitem fun item item' hi => ?_
  -- What comes behind the variable is the same in both forms of it.
  have hrest (v v' : LoopVariable) (hv : v.through l = v'.through l) : Agree l (SameStmt l)
      (do
        let body ← Lower.block header (← given (View.Guarded.body? t)).val
        return Stmt.mk (.foreachLoop header v e body) t.span)
      (do
        let body ← Lower.block header (← given (View.Guarded.body? t')).val
        return Stmt.mk (.foreachLoop header v' e' body) t'.span) :=
    .given (L.nodeWhere? h (· == .stmtList) rfl) fun c c' hc =>
      ((ih hc).block header).bind fun b b' hb =>
        .pure (sameStmt_mk (by simp only [StmtForm.through, hv, he, hb]) (L.span h))
  refine .ite (Likeness.Same.isNode hi _) ?_ ?_
  · exact ((Agree.declare header hi).map fun symbol _ hsymbol => by rw [hsymbol]).bind hrest
  · exact ((Agree.nameUse header hi).map fun d d' hd => by
      simp only [LoopVariable.through, hd]).bind hrest

/-- A block of a script has the same parameters or arguments. -/
theorem agree_begin (hkind : t.kind = .node .beginStmt) :
    Agree l (SameStmt l) (Lower.statement scope t) (Lower.statement scope t') := by
  have hkind' := (L.kind h).symm.trans hkind
  rw [Lower.statement, Lower.statement, hkind, hkind']
  refine .given (L.nodeWhere? h (· == .name) rfl) fun c c' hc => ?_
  have htext := Likeness.Same.text hc
  refine .bind (.params scope (L.nodeWhere? h _ rfl)) fun symbols _ hsymbols => ?_
  subst hsymbols
  refine .optional (r := List.Forall₂ (SameExpr l)) (L.nodeWhere? h (· == .argList) rfl)
    (.pure .nil) (fun c c' hc => (ih hc).exprs scope) fun args args' hargs => ?_
  refine .given (L.nodeWhere? h _ rfl) fun body body' hbody => ?_
  exact ((ih hbody).block scope).bind fun b b' hb => .pure (sameStmt_mk
    (by simp only [StmtForm.through, htext, Expr.throughAll_congr hargs, hb]) (L.span h))

/-! ### Branches -/

/-- A later branch with a condition. -/
theorem agree_elseIf (hkind : t.kind = .node .elseIfBranch) :
    Agree l (SameBranch l) (Lower.branch scope t) (Lower.branch scope t') := by
  have hkind' := (L.kind h).symm.trans hkind
  rw [Lower.branch, Lower.branch, hkind, hkind']
  refine .given (L.nodeWhere? h _ rfl) fun c c' hc => ((ih hc).expr scope).bind fun e e' he => ?_
  refine .given (L.nodeWhere? h _ rfl) fun c c' hc => ((ih hc).block scope).bind fun b b' hb => ?_
  refine .optional (r := Option.Rel (SameBranch l)) (L.nodeWhere? h NodeKind.isBranch rfl)
    (.pure .none) (fun c c' hc => ((ih hc).branch scope).map fun _ _ hr => .some hr)
    fun rest rest' hrest => ?_
  exact .pure (by simp only [SameBranch, Branch.through, he, hb, Branch.throughIn_congr hrest, L.span h])

/-- The last branch. -/
theorem agree_otherwise (hkind : t.kind = .node .elseBranch) :
    Agree l (SameBranch l) (Lower.branch scope t) (Lower.branch scope t') := by
  have hkind' := (L.kind h).symm.trans hkind
  rw [Lower.branch, Lower.branch, hkind, hkind']
  exact .given (L.nodeWhere? h _ rfl) fun c c' hc => ((ih hc).block scope).bind fun b b' hb =>
    .pure (by simp only [SameBranch, Branch.through, hb, L.span h])

/-! ### All forms -/

/-- Every expression, by its kind, which both trees share. -/
theorem agree_expr : Agree l (SameExpr l) (Lower.expr scope t) (Lower.expr scope t') := by
  rcases h.forms with ⟨m, m', rfl, rfl⟩ | ⟨kind, span, span', cs, cs', rfl, rfl⟩
  · rw [Lower.expr, Lower.expr]
    exact .failure
  cases kind
  case nameRef => exact agree_name h rfl
  case literal => exact agree_literal h rfl
  case parenExpr => exact agree_paren h ih rfl
  case unaryExpr => exact agree_unary h ih rfl
  case binExpr => exact agree_binary h ih rfl
  case memberExpr => exact agree_member h ih rfl
  case funcExpr => exact agree_call h ih rfl
  case lambdaExpr => exact agree_lambda h ih rfl
  all_goals
    rw [Lower.expr, Lower.expr]
    exact .failure

/-- Every statement, by its kind. -/
theorem agree_statement :
    Agree l (SameStmt l) (Lower.statement scope t) (Lower.statement scope t') := by
  rcases h.forms with ⟨m, m', rfl, rfl⟩ | ⟨kind, span, span', cs, cs', rfl, rfl⟩
  · rw [Lower.statement, Lower.statement]
    exact .failure
  -- The kind is the same for both trees, so both are lowered in the same form.
  cases kind
  case varDeclStmt => exact agree_varDecl h ih rfl
  case setStmt => exact agree_assign h ih rfl
  case letStmt => exact agree_evaluate h ih rfl
  case ifStmt => exact agree_if h ih rfl
  case whileStmt => exact agree_while h ih rfl
  case foreachStmt => exact agree_foreach h ih rfl
  case beginStmt => exact agree_begin h ih rfl
  case returnStmt => exact agree_leave h ih rfl
  case exprStmt => exact agree_expression h ih rfl
  case breakStmt =>
    rw [Lower.statement, Lower.statement]
    exact .pure (sameStmt_mk rfl (L.span h))
  case continueStmt =>
    rw [Lower.statement, Lower.statement]
    exact .pure (sameStmt_mk rfl (L.span h))
  all_goals
    rw [Lower.statement, Lower.statement]
    exact .failure

/-- Every branch, by its kind. -/
theorem agree_branch : Agree l (SameBranch l) (Lower.branch scope t) (Lower.branch scope t') := by
  rcases h.forms with ⟨m, m', rfl, rfl⟩ | ⟨kind, span, span', cs, cs', rfl, rfl⟩
  · rw [Lower.branch, Lower.branch]
    exact .failure
  cases kind
  case elseIfBranch => exact agree_elseIf h ih rfl
  case elseBranch => exact agree_otherwise h ih rfl
  all_goals
    rw [Lower.branch, Lower.branch]
    exact .failure

end Forms

/-- **Trees that look the same mean what looks the same.** -/
theorem meet {t t' : Tree} (h : L.Same t t') : Meet l t t' := by
  have ih {c : t.Child} {c' : t'.Child} (hc : L.SameChild c c') : Meet l c.val c'.val := meet hc
  exact ⟨fun _ => agree_expr h ih, fun _ => agree_exprs h ih, fun _ => agree_block h ih,
    fun _ => agree_statement h ih, fun _ => agree_branch h ih⟩
termination_by sizeOf t
decreasing_by exact Tree.sizeOf_lt_of_mem_children c.property

end Lower

/-! ## Scripts -/

/-- **Scripts that look the same mean what looks the same**, or nothing both. -/
theorem Likeness.ofTree?_congr {l : Lens} (L : Likeness l) {t t' : Tree} (h : L.Same t t')
    (hkind : t.kind = .node .script) :
    (Script.ofTree? t).map (Script.through l) = (Script.ofTree? t').map (Script.through l) := by
  have hname : Option.Rel (Token.SameName l) (Script.declaredName? t)
      (Script.declaredName? t') :=
    rel_bind (L.nodeWhere? h _ rfl) fun _ _ hdecl =>
      rel_bind (L.nodeWhere? hdecl _ rfl) fun _ _ hname => L.name hname
  have hstatements := Lower.Agree.each (L.nodesWhere h NodeKind.isStatement rfl) fun _ _ hc =>
    (Lower.meet hc).statement .root
  have hspan := L.span h
  rcases h.forms with ⟨m, m', rfl, rfl⟩ | ⟨kind, span, span', cs, cs', rfl, rfl⟩
  · cases hkind
  obtain rfl : kind = .script := ElementKind.node.inj hkind
  -- Both walks begin with a single scope, at places that look the same.
  have hstart : (Gathered.start span).Same l (Gathered.start span') := by
    refine ⟨?_, rfl⟩
    have hroot : NodeKey.through l ⟨.script, span⟩ = NodeKey.through l ⟨.script, span'⟩ :=
      congrArg (NodeKey.mk .script) hspan
    simp [ScopeTree.through, ScopeTree.ofRoot, Scope.through, hroot]
  obtain ⟨hbody, hleft⟩ := hstatements _ _ hstart
  rw [Lower.after_filterMapM, Lower.after_filterMapM] at hbody hleft
  rw [Script.ofTree?_node, Script.ofTree?_node, Option.map_map, Option.map_map]
  refine map_eq_of_rel hname fun m m' _ hsame => ?_
  cases hbody with
  | some hbody =>
    simp only [Function.comp, Script.through, Script.mk.injEq]
    exact ⟨hsame.text, hsame.span, Stmt.throughAll_congr hbody, hleft.scopes, hleft.values⟩

end ScriptSense
