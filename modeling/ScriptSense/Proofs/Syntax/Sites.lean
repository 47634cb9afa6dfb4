/-
Where the tokens of a tree stand.

A token where it stands carries the nodes around it as a list, read off the tree. That
list and the offsets tell the same: of the nodes of a tree those are around a token
whose span is around its span, because the elements lie side by side and no token is
empty. So a search among the tokens below a node misses none that lies inside it.

The order of the tokens also says what a cursor between them means: the last significant
token on a line, and the line is that of the token which the cursor touches
(`tokenNear?_spec`).
-/
import ScriptSense.Proofs.Grammar.Headed
import ScriptSense.Proofs.Syntax.Tiled
import ScriptSense.Syntax.Site

set_option autoImplicit false

namespace ScriptSense

theorem Span.covers_iff {s t : Span} : s.covers t = true ↔ s.start ≤ t.start ∧ t.stop ≤ s.stop := by
  simp [covers]

theorem Span.touches_iff {s : Span} {offset : Nat} :
    s.touches offset = true ↔ s.start ≤ offset ∧ offset ≤ s.stop := by
  simp [touches]

/-- The token of a leaf where it stands. -/
def NodeSite.token? (s : NodeSite) : Option TokenSite := s.item.token?.map fun m => ⟨m, s.above⟩

namespace Tree

/-! ## Elements inside a tree -/

/-- The tree is the other one or lies somewhere inside it. -/
inductive Holds : Tree → Tree → Prop
  | self (t : Tree) : Holds t t
  | deeper {t c u : Tree} (hc : c ∈ t.children) (h : Holds c u) : Holds t u

namespace Holds

variable {t u v c : Tree}

theorem trans (h : Holds t u) (h' : Holds u v) : Holds t v := by
  induction h with
  | self => exact h'
  | deeper hc _ ih => exact .deeper hc (ih h')

theorem child (h : Holds t u) (hc : c ∈ u.children) : Holds t c := h.trans (.deeper hc (.self c))

theorem formed (h : Holds t u) (ht : t.Formed) : u.Formed := by
  induction h with
  | self => exact ht
  | deeper hc _ ih => exact ih (ht.of_mem_children hc)

theorem tiled (h : Holds t u) (ht : t.Tiled) : u.Tiled := by
  induction h with
  | self => exact ht
  | deeper hc _ ih => exact ih (ht.of_mem_children hc)

/-- What lies inside a tree lies between its ends. -/
theorem covers (h : Holds t u) (ht : t.Tiled) : t.span.covers u.span = true := by
  induction h with
  | self t => exact t.span.covers_refl
  | deeper hc _ ih =>
    exact Span.covers_trans (Span.covers_iff.2 (ht.covers_child hc)) (ih (ht.of_mem_children hc))

/-- A token holds nothing but itself. -/
theorem eq_of_leaf {m : Token} (h : Holds (.leaf m) u) : u = .leaf m := by
  cases h with
  | self => rfl
  | deeper hc _ => cases hc

end Holds

/-! ## Elements where they stand -/

theorem mem_sitesOfAllBelow {above ts : List Tree} {s : TokenSite} :
    s ∈ sitesOfAllBelow above ts ↔ ∃ c ∈ ts, s ∈ c.sitesBelow above := by
  induction ts with
  | nil => simp [sitesOfAllBelow]
  | cons t ts ih => simp [sitesOfAllBelow, ih]

/-- The element stands in the tree, below the nodes that the site lists. -/
inductive Stands (root : Tree) : NodeSite → Prop
  | root : Stands root ⟨root, []⟩
  | child {t c : Tree} {above : List Tree} (h : Stands root ⟨t, above⟩) (hc : c ∈ t.children) :
    Stands root ⟨c, t :: above⟩

namespace Stands

variable {root : Tree} {s : NodeSite}

theorem holds (h : root.Stands s) : root.Holds s.item := by
  induction h with
  | root => exact .self root
  | child _ hc ih => exact ih.child hc

/-- The tokens below an element are tokens of the tree. -/
theorem sites_subset (h : root.Stands s) : s.item.sitesBelow s.above ⊆ root.sites := by
  induction h with
  | root => exact List.Subset.refl _
  | @child t c above _ hc ih =>
    refine List.Subset.trans (fun r hr => ?_) ih
    cases t with
    | leaf => cases hc
    | node kind span cs =>
      change r ∈ sitesBelow above (.node kind span cs)
      rw [sitesBelow]
      exact mem_sitesOfAllBelow.2 ⟨c, hc, hr⟩

theorem mem_sites {m : Token} {above : List Tree} (h : root.Stands ⟨.leaf m, above⟩) :
    ⟨m, above⟩ ∈ root.sites :=
  h.sites_subset (by simp [sitesBelow])

end Stands

/-! ## Nodes where they stand -/

theorem mem_nodeSitesOfAllBelow {above ts : List Tree} {s : NodeSite} :
    s ∈ nodeSitesOfAllBelow above ts ↔ ∃ c ∈ ts, s ∈ c.nodeSitesBelow above := by
  induction ts with
  | nil => simp [nodeSitesOfAllBelow]
  | cons t ts ih => simp [nodeSitesOfAllBelow, ih]

mutual

theorem holds_of_nodeSite {t : Tree} {above : List Tree} {s : NodeSite}
    (h : s ∈ t.nodeSitesBelow above) : t.Holds s.item := by
  cases t with
  | leaf => simp [nodeSitesBelow] at h
  | node kind span cs =>
    rw [nodeSitesBelow, List.mem_cons] at h
    rcases h with rfl | h
    · exact .self _
    · obtain ⟨c, hc, hholds⟩ := exists_holds_of_nodeSite h
      exact .deeper hc hholds

/-- A node of a list of trees where it stands lies inside one of them. -/
theorem exists_holds_of_nodeSite {ts above : List Tree} {s : NodeSite}
    (h : s ∈ nodeSitesOfAllBelow above ts) : ∃ c ∈ ts, c.Holds s.item := by
  cases ts with
  | nil => simp [nodeSitesOfAllBelow] at h
  | cons t ts =>
    rw [nodeSitesOfAllBelow, List.mem_append] at h
    rcases h with h | h
    · exact ⟨t, List.mem_cons_self, holds_of_nodeSite h⟩
    · obtain ⟨c, hc, hholds⟩ := exists_holds_of_nodeSite h
      exact ⟨c, List.mem_cons_of_mem _ hc, hholds⟩

end

/-! ## Tokens where they stand -/

namespace Tile

variable {a b : Nat} {ts above : List Tree} {s : TokenSite} {u v p : Tree}

/-- A token lies between the ends, and it is not empty. -/
theorem site_bounds (h : Tile a ts b) (hs : s ∈ sitesOfAllBelow above ts) :
    a ≤ s.item.start ∧ s.item.start < s.item.stop ∧ s.item.stop ≤ b := by
  induction h generalizing above with
  | nil => simp [sitesOfAllBelow] at hs
  | leaf hstart htext hts ih =>
    have hproper := token_start_lt_stop htext
    rw [sitesOfAllBelow, sitesBelow, List.singleton_append, List.mem_cons] at hs
    rcases hs with rfl | hs
    · exact ⟨hstart.ge, hproper, hts.le⟩
    · have := ih hs
      omega
  | node hstart hcs hts ihcs ihts =>
    have hcsle := hcs.le
    have htsle := hts.le
    rw [sitesOfAllBelow, sitesBelow, List.mem_append] at hs
    -- Below the node or behind it: the spans of both lie in the tile.
    rcases hs with hs | hs
    · have := ihcs hs
      omega
    · have := ihts hs
      omega

/-- The tokens stand one behind the other. -/
theorem sites_pairwise (h : Tile a ts b) (above : List Tree) :
    (sitesOfAllBelow above ts).Pairwise fun s r => s.item.stop ≤ r.item.start := by
  induction h generalizing above with
  | nil => simp [sitesOfAllBelow]
  | leaf hstart htext hts ih =>
    rw [sitesOfAllBelow, sitesBelow, List.singleton_append, List.pairwise_cons]
    exact ⟨fun r hr => (hts.site_bounds hr).1, ih above⟩
  | node hstart hcs hts ihcs ihts =>
    rw [sitesOfAllBelow, sitesBelow, List.pairwise_append]
    exact ⟨ihcs _, ihts _, fun s hs r hr =>
      (hcs.site_bounds hs).2.2.trans (hts.site_bounds hr).1⟩

/-- What is around trees is around their tokens. -/
theorem above_suffix (h : Tile a ts b) (hs : s ∈ sitesOfAllBelow above ts) : above <:+ s.above := by
  induction h generalizing above with
  | nil => simp [sitesOfAllBelow] at hs
  | leaf _ _ _ ih =>
    rw [sitesOfAllBelow, sitesBelow, List.singleton_append, List.mem_cons] at hs
    rcases hs with rfl | hs
    · exact List.suffix_rfl
    · exact ih hs
  | node _ _ _ ihcs ihts =>
    rw [sitesOfAllBelow, sitesBelow, List.mem_append] at hs
    rcases hs with hs | hs
    · exact (List.suffix_cons _ _).trans (ihcs hs)
    · exact ihts hs

/-- What is around a token covers it and lies inside one of the trees, unless it is
around all of them. -/
theorem of_mem_above (h : Tile a ts b) (hs : s ∈ sitesOfAllBelow above ts) (hp : p ∈ s.above) :
    p ∈ above ∨ (∃ t ∈ ts, t.Holds p) ∧ p.span.covers s.item.span = true := by
  induction h generalizing above with
  | nil => simp [sitesOfAllBelow] at hs
  | leaf _ _ _ ih =>
    rw [sitesOfAllBelow, sitesBelow, List.singleton_append, List.mem_cons] at hs
    rcases hs with rfl | hs
    · exact .inl hp
    · exact (ih hs).imp_right fun ⟨⟨t, ht, hholds⟩, hcovers⟩ =>
        ⟨⟨t, List.mem_cons_of_mem _ ht, hholds⟩, hcovers⟩
  | node hstart hcs hts ihcs ihts =>
    rw [sitesOfAllBelow, sitesBelow, List.mem_append] at hs
    rcases hs with hs | hs
    · rcases ihcs hs with hp | ⟨⟨t, ht, hholds⟩, hcovers⟩
      -- Among the nodes above stands this one, and whatever stood above it.
      · refine (List.mem_cons.1 hp).symm.imp_right fun hself => ?_
        obtain ⟨hfrom, -, huntil⟩ := hcs.site_bounds hs
        subst hself
        exact ⟨⟨_, List.mem_cons_self, .self _⟩, Span.covers_iff.2 ⟨hfrom, huntil⟩⟩
      · exact .inr ⟨⟨_, List.mem_cons_self, .deeper ht hholds⟩, hcovers⟩
    · exact (ihts hs).imp_right fun ⟨⟨t, ht, hholds⟩, hcovers⟩ =>
        ⟨⟨t, List.mem_cons_of_mem _ ht, hholds⟩, hcovers⟩

/-- Right above a token is the node that it is a child of. -/
theorem leaf_mem_of_site (h : Tile a ts b) (hs : s ∈ sitesOfAllBelow above ts) :
    s.above = above ∧ .leaf s.item ∈ ts
      ∨ ∃ p ps, s.above = p :: ps ∧ .leaf s.item ∈ p.children := by
  induction h generalizing above with
  | nil => simp [sitesOfAllBelow] at hs
  | leaf _ _ _ ih =>
    rw [sitesOfAllBelow, sitesBelow, List.singleton_append, List.mem_cons] at hs
    rcases hs with rfl | hs
    · exact .inl ⟨rfl, List.mem_cons_self⟩
    · exact (ih hs).imp_left fun h => ⟨h.1, List.mem_cons_of_mem _ h.2⟩
  | node _ _ _ ihcs ihts =>
    rw [sitesOfAllBelow, sitesBelow, List.mem_append] at hs
    rcases hs with hs | hs
    -- A leaf right below the node has it as its innermost, and a deeper one has its own.
    · exact .inr ((ihcs hs).elim (fun h => ⟨_, _, h.1, h.2⟩) id)
    · exact (ihts hs).imp_left fun h => ⟨h.1, List.mem_cons_of_mem _ h.2⟩

/-- **A node that covers a token is around it.** -/
theorem mem_above_of_covers (h : Tile a ts b) (hu : u ∈ ts) (hv : u.Holds v) (hnode : v.key? ≠ none)
    (hs : s ∈ sitesOfAllBelow above ts) (hcovers : v.span.covers s.item.span = true) :
    v ∈ s.above := by
  -- The spans of two trees side by side do not overlap, so only the tree with the token covers
  -- it.
  have hwithin : ∀ {a b ts}, Tile a ts b → u ∈ ts → a ≤ v.span.start ∧ v.span.stop ≤ b := by
    intro a b ts h hu
    obtain ⟨htiled, hfrom, huntil⟩ := h.of_mem hu
    have hinside := Span.covers_iff.1 (hv.covers htiled)
    omega
  have hinside : v.span.start ≤ s.item.start ∧ s.item.stop ≤ v.span.stop := Span.covers_iff.1 hcovers
  induction h generalizing above u with
  | nil => cases hu
  | leaf hstart htext hts ih =>
    rw [sitesOfAllBelow, sitesBelow, List.singleton_append, List.mem_cons] at hs
    rcases List.mem_cons.1 hu with rfl | hu
    · rw [hv.eq_of_leaf] at hnode
      exact absurd rfl hnode
    · rcases hs with rfl | hs
      · have hlate := (hwithin hts hu).1
        have hproper := token_start_lt_stop htext
        dsimp only at hinside
        omega
      · exact ih hu hv hs hwithin
  | @node start stop kind span cs ts hstart hcs hts ihcs ihts =>
    rw [sitesOfAllBelow, sitesBelow, List.mem_append] at hs
    have hproper : s.item.start < s.item.stop := by
      rcases hs with hs | hs
      · exact (hcs.site_bounds hs).2.1
      · exact (hts.site_bounds hs).2.1
    rcases List.mem_cons.1 hu with rfl | hu <;> rcases hs with hs | hs
    · -- The node is the first tree itself or lies inside one of its children.
      cases hv with
      | self => exact (hcs.above_suffix hs).subset List.mem_cons_self
      | deeper hc hv =>
        refine ihcs hc hv hs fun htile hmem => ?_
        obtain ⟨htiled, hfrom, huntil⟩ := htile.of_mem hmem
        have hinner := Span.covers_iff.1 (hv.covers htiled)
        omega
    · have hearly := (hwithin (.node hstart hcs (.nil _)) (List.mem_singleton_self _)).2
      have hlate := (hts.site_bounds hs).1
      omega
    · have hlate := (hwithin hts hu).1
      have hearly := (hcs.site_bounds hs).2.2
      omega
    · exact ihts hu hv hs hwithin

end Tile

/-! ## Tokens of a whole tree -/

section

variable {t u p : Tree} {s r : TokenSite} {ps : List Tree}

theorem sitesOfAllBelow_singleton (t : Tree) (above : List Tree) :
    sitesOfAllBelow above [t] = t.sitesBelow above := by
  rw [sitesOfAllBelow, sitesOfAllBelow, List.append_nil]

theorem mem_sites_iff : s ∈ t.sites ↔ s ∈ sitesOfAllBelow [] [t] := by
  rw [sitesOfAllBelow_singleton, sites]

theorem Tiled.site_proper (ht : t.Tiled) (hs : s ∈ t.sites) : s.item.start < s.item.stop :=
  (Tile.site_bounds ht (mem_sites_iff.1 hs)).2.1

/-- The tokens of a tree stand one behind the other. -/
theorem Tiled.sites_pairwise (ht : t.Tiled) :
    t.sites.Pairwise fun s r => s.item.stop ≤ r.item.start := by
  rw [sites, ← sitesOfAllBelow_singleton]
  exact Tile.sites_pairwise ht []

/-- What is around a token of a tree lies in the tree and covers the token. -/
theorem Tiled.of_mem_above (ht : t.Tiled) (hs : s ∈ t.sites) (hp : p ∈ s.above) :
    t.Holds p ∧ p.span.covers s.item.span = true := by
  obtain ⟨⟨u, hu, hholds⟩, hcovers⟩ :=
    (Tile.of_mem_above ht (mem_sites_iff.1 hs) hp).resolve_left (List.not_mem_nil)
  rw [List.mem_singleton.1 hu] at hholds
  exact ⟨hholds, hcovers⟩

/-- The parent of a token has the token as a child. -/
theorem Tiled.leaf_mem_children (ht : t.Tiled) (hs : s ∈ t.sites) (habove : s.above = p :: ps) :
    .leaf s.item ∈ p.children := by
  rcases Tile.leaf_mem_of_site ht (mem_sites_iff.1 hs) with ⟨hnone, -⟩ | ⟨q, qs, hq, hmem⟩
  · rw [hnone] at habove
    cases habove
  · rw [habove] at hq
    rwa [(List.cons.inj hq).1]

/-- **A node of a tree that covers a token is around it.** -/
theorem Tiled.mem_above_of_covers (ht : t.Tiled) (hu : t.Holds u) (hnode : u.key? ≠ none)
    (hs : s ∈ t.sites) (hcovers : u.span.covers s.item.span = true) : u ∈ s.above :=
  Tile.mem_above_of_covers ht (List.mem_singleton_self t) hu hnode (mem_sites_iff.1 hs) hcovers

/-! ## Names -/

/-- A name is the identifier in it. -/
theorem text_eq_of_isName {kind : NodeKind} {span : Span} {cs : List Tree} (h : IsName cs) {m : Token}
    (hm : .leaf m ∈ cs) (hkind : m.kind = .ident) :
    View.Identifier.text (.node kind span cs) = m.text := by
  obtain ⟨before, word, after, rfl, hword, hbefore, hafter⟩ := h
  have hlayout : ∀ w : Token, w.kind.isTrivia = true ∨ w.kind = .newline → w.kind ≠ .ident := by
    rintro w (hw | hw) hident <;> rw [hident] at hw <;> cases hw
  -- Layout and line breaks are no identifiers, so the name has one identifier.
  have hself : m = word := by
    obtain ⟨w, hw, heq⟩ := List.mem_map.1 hm
    rw [leaf.inj heq] at hw
    rcases List.mem_append.1 hw with hw | hw
    · exact absurd hkind (hlayout m (.inl (hbefore m hw)))
    · exact (List.mem_cons.1 hw).resolve_right fun hw => hlayout m (hafter m hw) hkind
  -- The view takes the first identifier, and in front of the word is none.
  have htoken : View.Identifier.token? (.node kind span ((before ++ word :: after).map .leaf))
      = some word := by
    have hfront : before.find? (fun w => w.kind == .ident) = none :=
      List.find?_eq_none.2 fun w hw => by simpa using hlayout w (.inl (hbefore w hw))
    have htokens : ((before ++ word :: after).map leaf).filterMap token? = before ++ word :: after := by
      rw [List.filterMap_map]
      exact List.filterMap_some
    rw [View.Identifier.token?, tokenOf?, tokenWhere?, children, htokens, List.find?_append, hfront,
      Option.none_or, List.find?_cons_of_pos (by simpa using hword)]
  rw [View.Identifier.text, htoken, hself]
  rfl

/-! ## The token at an offset -/

mutual

theorem filterMap_tipsBelow (above : List Tree) (t : Tree) :
    (t.tipsBelow above).filterMap NodeSite.token? = t.sitesBelow above := by
  cases t with
  | leaf m => rw [tipsBelow, sitesBelow]; rfl
  | node kind span cs =>
    rw [tipsBelow, sitesBelow]
    split
    · next hempty =>
      rw [List.isEmpty_iff.1 hempty, sitesOfAllBelow]
      rfl
    · exact filterMap_tipsOfAllBelow _ cs

theorem filterMap_tipsOfAllBelow (above ts : List Tree) :
    (tipsOfAllBelow above ts).filterMap NodeSite.token? = sitesOfAllBelow above ts := by
  cases ts with
  | nil => rw [tipsOfAllBelow, sitesOfAllBelow]; rfl
  | cons t ts =>
    rw [tipsOfAllBelow, sitesOfAllBelow, List.filterMap_append, filterMap_tipsBelow, filterMap_tipsOfAllBelow]

end

/-- The tips that are tokens are the tokens of the tree. -/
theorem filterMap_tips (t : Tree) : t.tips.filterMap NodeSite.token? = t.sites :=
  filterMap_tipsBelow [] t

theorem mem_tips_iff {m : Token} {up : List Tree} :
    (⟨.leaf m, up⟩ : NodeSite) ∈ t.tips ↔ ⟨m, up⟩ ∈ t.sites := by
  rw [← filterMap_tips, List.mem_filterMap]
  refine ⟨fun h => ⟨_, h, rfl⟩, fun ⟨⟨tip, up'⟩, htip, heq⟩ => ?_⟩
  cases tip with
  | leaf m' =>
    obtain ⟨rfl, rfl⟩ := Site.mk.inj (Option.some.inj heq)
    exact htip
  | node => cases heq

theorem mem_tipsBefore_iff {offset : Nat} {tip : NodeSite} :
    tip ∈ t.tipsBefore offset ↔ tip ∈ t.tips ∧ tip.item.span.stop ≤ offset := by
  rw [tipsBefore, List.mem_reverse, List.mem_filter, decide_eq_true_iff]

/-- Among the tips in front of an offset the tokens that stand later come first. -/
theorem Tiled.pairwise_tipsBefore (ht : t.Tiled) (offset : Nat) :
    ((t.tipsBefore offset).filterMap NodeSite.token?).Pairwise fun s r => r.item.stop ≤ s.item.start := by
  rw [tipsBefore, List.filterMap_reverse, List.pairwise_reverse]
  refine ht.sites_pairwise.sublist ?_
  rw [← filterMap_tips]
  exact List.filter_sublist.filterMap _

/-- **The last significant token in front of an offset**: behind it, up to the offset,
there are only blanks and comments. -/
theorem Tiled.significantBefore?_spec (ht : t.Tiled) {offset : Nat}
    (h : t.significantBefore? offset = some s) :
    s ∈ t.sites ∧ s.item.stop ≤ offset ∧ s.item.kind.isSignificant = true
      ∧ ∀ r ∈ t.sites, s.item.stop ≤ r.item.start → r.item.stop ≤ offset → r.item.kind.isTrivia = true := by
  obtain ⟨hbefore, hbreak⟩ := Option.filter_eq_some_iff.1 h
  rw [tokenBefore?] at hbefore
  split at hbefore
  · next m up rest hrest =>
    obtain rfl := Option.some.inj hbefore
    have hsplit := List.takeWhile_append_dropWhile (l := t.tipsBefore offset)
      (p := fun tip => tip.item.kind.isToken TokenKind.isTrivia)
    have hhead := List.head_dropWhile_not (fun tip : NodeSite => tip.item.kind.isToken TokenKind.isTrivia)
      (l := t.tipsBefore offset) (by rw [hrest]; nofun)
    simp only [hrest, List.head_cons] at hhead hsplit
    -- Trivia at the end are dropped, so the first tip left is the one that was asked for.
    obtain ⟨htip, hstop⟩ := mem_tipsBefore_iff.1 (hsplit ▸ List.mem_append_right _ List.mem_cons_self)
    have hself := mem_tips_iff.1 htip
    refine ⟨hself, hstop, ?_, fun r hr hfrom huntil => ?_⟩
    · have htrivia : m.kind.isTrivia = false := hhead
      simpa only [TokenKind.isSignificant, htrivia, Bool.not_false, Bool.true_and] using hbreak
    · have hproper : m.start < m.stop := ht.site_proper hself
      have hproper' := ht.site_proper hr
      have hbehind : m.stop ≤ r.item.start := hfrom
      have hin := hsplit ▸ mem_tipsBefore_iff.2 ⟨mem_tips_iff.2 hr, huntil⟩
      rcases List.mem_append.1 hin with hpassed | hin
      · have htrivia := List.mem_takeWhile_imp hpassed
        exact htrivia
      · -- What is left in the list is the token itself and what stands in front of it.
        rcases List.mem_cons.1 hin with heq | hin
        · rw [leaf.inj (Site.mk.inj heq).1] at hbehind
          omega
        · have horder := ht.pairwise_tipsBefore offset
          rw [← hsplit, List.filterMap_append, List.pairwise_append] at horder
          have hle : r.item.stop ≤ m.start :=
            (List.pairwise_cons.1 horder.2.1).1 r (List.mem_filterMap.2 ⟨_, hin, rfl⟩)
          omega
  · cases hbefore

/-- **The token that a cursor means** is one that it touches, or the last significant one
on the line on which the token begins that it touches. -/
theorem Tiled.tokenNear?_spec (ht : t.Tiled) {offset : Nat} (h : t.tokenNear? offset = some s) :
    s ∈ t.touching offset ∨ ∃ touched more, t.touching offset = touched :: more ∧ s ∈ t.sites
      ∧ s.item.stop ≤ touched.item.start ∧ s.item.kind.isSignificant = true
      ∧ ∀ r ∈ t.sites, s.item.stop ≤ r.item.start → r.item.stop ≤ touched.item.start →
        r.item.kind.isTrivia = true := by
  rw [tokenNear?] at h
  split at h
  · cases h
  · next touched more htouching =>
    rw [htouching]
    split at h
    · next r hfound =>
      rw [← Option.some.inj h]
      exact .inl (List.mem_of_find?_eq_some hfound)
    -- No significant token is touched: the one in front of the touched ones, or else the first
    -- of them.
    · rcases Option.or_eq_some_iff.1 h with h | ⟨-, h⟩
      · obtain ⟨hs, hstop, hkind, hbetween⟩ := ht.significantBefore?_spec h
        exact .inr ⟨touched, more, rfl, hs, hstop, hkind, hbetween⟩
      · rw [← Option.some.inj h]
        exact .inl List.mem_cons_self

theorem mem_sites_of_mem_touching {offset : Nat} (h : s ∈ t.touching offset) : s ∈ t.sites :=
  (List.mem_filter.1 h).1

/-- **The identifier that a cursor means is one of the tree.** -/
theorem Tiled.mem_sites_of_identifierNear? (ht : t.Tiled) {offset : Nat}
    (h : t.identifierNear? offset = some s) : s ∈ t.sites ∧ s.item.kind = .ident := by
  rw [identifierNear?] at h
  split at h
  · next left right hsplit =>
    have htouches : s ∈ t.touching offset := by
      rw [hsplit]
      simpa [or_comm] using List.mem_of_find?_eq_some h
    exact ⟨mem_sites_of_mem_touching htouches, by simpa using List.find?_some h⟩
  · obtain ⟨hnear, hkind⟩ := Option.filter_eq_some_iff.1 h
    refine ⟨?_, eq_of_beq hkind⟩
    rcases ht.tokenNear?_spec hnear with htouching | ⟨-, -, -, hs, -⟩
    · exact mem_sites_of_mem_touching htouching
    · exact hs

/-- A cursor in a token or at its beginning touches this token and, in front of it, at
most one other. -/
theorem Tiled.touching_eq (ht : t.Tiled) (hs : s ∈ t.sites) {offset : Nat}
    (hfrom : s.item.start ≤ offset) (huntil : offset < s.item.stop) :
    t.touching offset = [s] ∨ ∃ r, t.touching offset = [r, s] := by
  obtain ⟨before, after, hsplit⟩ := List.append_of_mem hs
  have horder := ht.sites_pairwise
  rw [hsplit, List.pairwise_append, List.pairwise_cons] at horder
  obtain ⟨hinner, ⟨hafter, -⟩, hbefore⟩ := horder
  have hself : s.item.span.touches offset = true := Span.touches_iff.2 ⟨hfrom, huntil.le⟩
  have hback : after.filter (·.item.span.touches offset) = [] := by
    refine List.filter_eq_nil_iff.2 fun r hr => ?_
    have hlate : s.item.stop ≤ r.item.start := hafter r hr
    intro htouches
    have hreaches : r.item.start ≤ offset := (Span.touches_iff.1 htouches).1
    omega
  have htouching : t.touching offset = before.filter (·.item.span.touches offset) ++ [s] := by
    rw [touching, hsplit, List.filter_append, List.filter_cons, if_pos hself, hback]
  -- Two tokens in front of this one do not end at the same offset.
  have hends : ∀ r ∈ before.filter (·.item.span.touches offset), r.item.stop = offset
      ∧ r.item.start < r.item.stop := by
    intro r hr
    obtain ⟨hr, htouches⟩ := List.mem_filter.1 hr
    have hearly : r.item.stop ≤ s.item.start := hbefore r hr s List.mem_cons_self
    have hproper := ht.site_proper (s := r) (by rw [hsplit]; exact List.mem_append_left _ hr)
    have hreaches : offset ≤ r.item.stop := (Span.touches_iff.1 htouches).2
    omega
  have hpairwise := hinner.filter (·.item.span.touches offset)
  rw [htouching]
  rcases hfront : before.filter (·.item.span.touches offset) with _ | ⟨r, _ | ⟨q, rest⟩⟩
    <;> rw [hfront] at hends hpairwise ⊢
  · exact .inl rfl
  · exact .inr ⟨r, rfl⟩
  · have hr := hends r (by simp)
    have hq := hends q (by simp)
    have hle : r.item.stop ≤ q.item.start := (List.pairwise_cons.1 hpairwise).1 q (by simp)
    omega

/-- **A cursor in an identifier means it.** -/
theorem Tiled.identifierNear?_eq (ht : t.Tiled) (hs : s ∈ t.sites) (hkind : s.item.kind = .ident)
    {offset : Nat} (hfrom : s.item.start ≤ offset) (huntil : offset < s.item.stop) :
    t.identifierNear? offset = some s := by
  rcases ht.touching_eq hs hfrom huntil with htouching | ⟨r, htouching⟩
  · have hnear : t.tokenNear? offset = some s := by
      have hfound : [s].find? (·.item.kind.isSignificant) = some s :=
        List.find?_cons_of_pos (by rw [hkind]; rfl)
      rw [tokenNear?, htouching]
      simp only [hfound]
    rw [identifierNear?, htouching]
    simp [hnear, hkind]
  · rw [identifierNear?, htouching]
    exact List.find?_cons_of_pos (by simpa using hkind)

end

end Tree

end ScriptSense
