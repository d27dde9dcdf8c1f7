import HotRename.Collaborator.SyntaxTree
import Mathlib.Data.List.Infix

/-!
# The symbol at an offset

A place in a tree is the way down to a node. A place is live for an offset if the node there and all
nodes around it cover the offset. The search for the symbol at an offset goes into one child after
the other and comes back to the node itself, so it ends at the first place in post-order that is
live and names a symbol. No live place inside that one names a symbol, as it would come first. Main
statements:

* `symbolAt_node`        what the search does at one node
* `IsFirst.child`        the first place in a child is the first one in the tree
* `symbolAt_searched`    the search ends at the first place, or there is none
* `symbolAt_innermost`   the symbol at an offset
-/

namespace HotRename.SyntaxNode

/-- What holds of a node if it holds of its children holds of every tree. -/
@[induction_eliminator]
theorem induction {P : SyntaxNode → Prop}
    (node : ∀ start stop children symbol, (∀ child ∈ children, P child) →
      P (node start stop children symbol)) (t : SyntaxNode) : P t :=
  @SyntaxNode.rec P (fun children => ∀ child ∈ children, P child)
    node nofun (fun _ _ hhead htail => List.forall_mem_cons.mpr ⟨hhead, htail⟩) t

/-! ## Places -/

/-- The node at a place, which is given by the numbers of the children on the way down. -/
def at? (t : SyntaxNode) : List Nat → Option SyntaxNode
  | [] => some t
  | i :: place => t.children[i]?.bind fun child => child.at? place

/-- The symbol that the node at a place names. -/
def named? (t : SyntaxNode) (place : List Nat) : Option SymbolId :=
  (t.at? place).bind symbol

/-- There is a node at the place, and it and all nodes around it cover the offset. -/
structure Live (t : SyntaxNode) (offset : Nat) (place : List Nat) : Prop where
  exists_node : ∃ n, t.at? place = some n
  covered : ∀ around, around <+: place → ∀ n, t.at? around = some n → n.contains offset = true

/-- The first place comes before the second one in left-to-right post-order: what is inside a node
    comes before it, and what is inside a child before what is inside a later one. -/
def Before : List Nat → List Nat → Prop
  | [], _ => False
  | _ :: _, [] => True
  | i :: place, j :: other => i < j ∨ i = j ∧ Before place other

variable {t c : SyntaxNode} {offset i : Nat} {place other : List Nat} {id id' : SymbolId}

/-- A way down that starts with a child names what the rest of the way names in the child. -/
theorem named?_cons (h : t.children[i]? = some c) :
    t.named? (i :: place) = c.named? place := by
  simp [named?, at?, h]

/-- The place of the whole tree is live if the tree covers the offset. -/
theorem live_nil_iff : t.Live offset [] ↔ t.contains offset = true := by
  constructor
  · intro h
    exact h.covered [] List.prefix_rfl t rfl
  · intro h
    refine ⟨⟨t, rfl⟩, fun around haround n hn => ?_⟩
    rw [List.prefix_nil.mp haround] at hn
    cases hn
    exact h

/-- A place in a child is live if the tree covers the offset and the place is live in the child. -/
theorem live_cons_iff : t.Live offset (i :: place) ↔
    t.contains offset = true ∧ ∃ child, t.children[i]? = some child ∧ child.Live offset place := by
  constructor
  · intro ⟨⟨n, hn⟩, hcovered⟩
    obtain ⟨child, hchild, hn⟩ := Option.bind_eq_some_iff.mp hn
    refine ⟨hcovered [] List.nil_prefix t rfl, child, hchild, ⟨n, hn⟩, ?_⟩
    intro around haround m hm
    -- What lies around the place in the child lies around it in the tree.
    refine hcovered (i :: around) (List.cons_prefix_cons.mpr ⟨rfl, haround⟩) m ?_
    rw [at?, hchild]
    exact hm
  · intro ⟨hself, child, hchild, ⟨n, hn⟩, hcovered⟩
    refine ⟨⟨n, by rw [at?, hchild]; exact hn⟩, fun around haround m hm => ?_⟩
    -- Around the place lie the tree itself and what lies around it in the child.
    cases around with
    | nil =>
      cases hm
      exact hself
    | cons j around =>
      obtain ⟨rfl, hinner⟩ := List.cons_prefix_cons.mp haround
      rw [at?, hchild] at hm
      exact hcovered around hinner m hm

/-- Of two places at most one comes before the other. -/
theorem Before.asymm (h : Before place other) : ¬ Before other place := by
  induction place generalizing other with
  | nil => cases h
  | cons i place ih =>
    cases other with
    | nil => exact nofun
    | cons j other =>
      rintro (hlt' | ⟨rfl, h'⟩) <;> rcases h with hlt | ⟨hsame, h⟩
      · omega
      · omega
      · omega
      · exact ih h h'

/-- A node does not come before what is inside it. -/
theorem not_before_of_prefix (h : place <+: other) : ¬ Before place other := by
  induction place generalizing other with
  | nil => exact nofun
  | cons i place ih =>
    cases other with
    | nil => cases List.prefix_nil.mp h
    | cons j other =>
      obtain ⟨rfl, hinner⟩ := List.cons_prefix_cons.mp h
      rintro (hlt | ⟨-, hbefore⟩)
      · omega
      · exact ih hinner hbefore

/-! ## The first place -/

/-- The place is the first one that is live and names a symbol, and it names this one. -/
structure IsFirst (t : SyntaxNode) (offset : Nat) (place : List Nat) (id : SymbolId) : Prop where
  live : t.Live offset place
  named : t.named? place = some id
  first : ∀ other id', t.Live offset other → t.named? other = some id' →
    other = place ∨ Before place other

/-- No live place names a symbol. -/
def NoneLive (t : SyntaxNode) (offset : Nat) : Prop :=
  ∀ place, t.Live offset place → t.named? place = none

namespace IsFirst

/-- Two first places name one symbol. -/
theorem unique (h : t.IsFirst offset place id) (h' : t.IsFirst offset other id') : id = id' := by
  -- Neither of the two places comes before the other, so they are one.
  have hplace : other = place := by
    rcases h.first other id' h'.live h'.named with hsame | hbefore
    · exact hsame
    · rcases h'.first place id h.live h.named with hsame | hafter
      · exact hsame.symm
      · exact absurd hafter hbefore.asymm
  have hnamed := h.named
  rw [← hplace, h'.named] at hnamed
  exact (Option.some.inj hnamed).symm

/-- Nothing live inside the first place names a symbol. -/
theorem innermost (h : t.IsFirst offset place id) (hinside : place <+: other) (hne : other ≠ place)
    (hlive : t.Live offset other) : t.named? other = none := by
  refine Option.eq_none_iff_forall_ne_some.mpr fun id' hnamed => ?_
  rcases h.first other id' hlive hnamed with hsame | hbefore
  · exact hne hsame
  · exact not_before_of_prefix hinside hbefore

/-- The first place in a child is the first one in the tree, if nothing live in an earlier child
    names a symbol. -/
theorem child (hself : t.contains offset = true) (hchild : t.children[i]? = some c)
    (hearlier : ∀ j < i, ∀ c, t.children[j]? = some c → c.NoneLive offset)
    (h : c.IsFirst offset place id) : t.IsFirst offset (i :: place) id where
  live := live_cons_iff.mpr ⟨hself, c, hchild, h.live⟩
  named := (named?_cons hchild).trans h.named
  first other id' hlive hnamed := by
    cases other with
    | nil => exact .inr trivial
    | cons j other =>
      obtain ⟨-, c, hc, hlive⟩ := live_cons_iff.mp hlive
      rw [named?_cons hc] at hnamed
      -- Earlier children name nothing, later ones come after, and in the child itself the place is
      -- first.
      rcases Nat.lt_trichotomy j i with hlt | rfl | hgt
      · cases (hearlier j hlt c hc other hlive).symm.trans hnamed
      · cases hchild.symm.trans hc
        refine (h.first other id' hlive hnamed).imp (fun hsame => by rw [hsame]) fun hbefore => ?_
        exact .inr ⟨rfl, hbefore⟩
      · exact .inr (.inl hgt)

/-- The node itself comes first if nothing live in its children names a symbol. -/
theorem self (hself : t.contains offset = true) (hnamed : t.symbol = some id)
    (hchildren : ∀ c ∈ t.children, c.NoneLive offset) : t.IsFirst offset [] id where
  live := live_nil_iff.mpr hself
  named := hnamed
  first other id' hlive hnamed := by
    cases other with
    | nil => exact .inl rfl
    | cons j other =>
      obtain ⟨-, c, hc, hlive⟩ := live_cons_iff.mp hlive
      rw [named?_cons hc] at hnamed
      cases (hchildren c (List.mem_of_getElem? hc) other hlive).symm.trans hnamed

end IsFirst

/-! ## The search -/

/-- The search through a list of nodes takes the first symbol found in one of them. -/
theorem symbolIn_eq_findSome? (offset : Nat) (ns : List SyntaxNode) :
    symbolIn offset ns = ns.findSome? (symbolAt offset) := by
  induction ns with
  | nil => rfl
  | cons n ns ih =>
    rw [symbolIn, ih, List.findSome?_cons]
    cases symbolAt offset n <;> rfl

/-- The search at a node that covers the offset takes the first symbol that it finds in a child, or
    else the symbol of the node. -/
theorem symbolAt_node (t : SyntaxNode) (offset : Nat) :
    t.symbolAt offset = if t.contains offset = true then
      (t.children.findSome? (symbolAt offset)).or t.symbol else none := by
  obtain ⟨start, stop, children, symbol⟩ := t
  have hcovers : (node start stop children symbol).contains offset = true ↔
      start ≤ offset ∧ offset ≤ stop := by
    rw [contains, Bool.and_eq_true, decide_eq_true_eq, decide_eq_true_eq]
    rfl
  simp only [symbolAt, symbolIn_eq_findSome?, hcovers, SyntaxNode.children, SyntaxNode.symbol]

/-- The search ends at the first place that is live and names a symbol, or there is none. -/
theorem symbolAt_searched (t : SyntaxNode) (offset : Nat) :
    (t.symbolAt offset = none → t.NoneLive offset) ∧
      ∀ id, t.symbolAt offset = some id → ∃ place, t.IsFirst offset place id := by
  induction t with
  | node start stop children symbol ih =>
    rw [symbolAt_node]
    by_cases hself : (node start stop children symbol).contains offset = true
    · rw [if_pos hself, SyntaxNode.children, SyntaxNode.symbol]
      cases hfound : children.findSome? (symbolAt offset) with
      | none =>
        rw [Option.none_or]
        -- No child has a live place with a symbol, so that the symbol of the node counts.
        have hchildren : ∀ c ∈ children, c.NoneLive offset := fun c hc =>
          (ih c hc).1 (List.findSome?_eq_none_iff.mp hfound c hc)
        refine ⟨fun hnone place hlive => ?_, fun id hid => ⟨[], .self hself hid hchildren⟩⟩
        cases place with
        | nil => exact hnone
        | cons i place =>
          obtain ⟨-, c, hc, hlive⟩ := live_cons_iff.mp hlive
          rw [named?_cons hc]
          exact hchildren c (List.mem_of_getElem? hc) place hlive
      | some found =>
        rw [Option.some_or]
        refine ⟨nofun, fun id hid => ?_⟩
        cases hid
        -- The search ended in the first child that had a symbol, so none before it had one.
        obtain ⟨earlier, c, later, rfl, hc, hearlier⟩ := List.findSome?_eq_some_iff.mp hfound
        obtain ⟨place, hfirst⟩ := (ih c (by simp)).2 found hc
        refine ⟨earlier.length :: place, hfirst.child hself (by simp [SyntaxNode.children]) ?_⟩
        intro j hj c' hc'
        have hmem : c' ∈ earlier := by
          rw [SyntaxNode.children, List.getElem?_append_left hj] at hc'
          exact List.mem_of_getElem? hc'
        exact (ih c' (List.mem_append_left _ hmem)).1 (hearlier c' hmem)
    · rw [if_neg hself]
      -- A place is live only in a tree that covers the offset.
      refine ⟨fun _ place hlive => absurd ?_ hself, nofun⟩
      exact hlive.covered [] List.nil_prefix _ rfl

/-- The symbol at an offset is that of the first place in left-to-right post-order that is live and
    names a symbol; no live place inside that one names a symbol. There is no symbol at the offset
    exactly if no live place names one. -/
theorem symbolAt_innermost (t : SyntaxNode) (offset : Nat) :
    (t.symbolAt offset = none ↔ ∀ place, t.Live offset place → t.named? place = none) ∧
    ∀ id, t.symbolAt offset = some id ↔ ∃ place, t.IsFirst offset place id ∧
      ∀ other, place <+: other → other ≠ place → t.Live offset other → t.named? other = none := by
  obtain ⟨hnone, hsome⟩ := symbolAt_searched t offset
  refine ⟨⟨hnone, fun h => ?_⟩, fun id => ⟨fun h => ?_, ?_⟩⟩
  · refine Option.eq_none_iff_forall_ne_some.mpr fun id hid => ?_
    obtain ⟨place, hfirst⟩ := hsome id hid
    cases (h place hfirst.live).symm.trans hfirst.named
  · obtain ⟨place, hfirst⟩ := hsome id h
    exact ⟨place, hfirst, fun _ => hfirst.innermost⟩
  · -- The search finds a symbol, and the place where it ends is the first one as well.
    rintro ⟨place, hfirst, -⟩
    cases hat : t.symbolAt offset with
    | none => cases (hnone hat place hfirst.live).symm.trans hfirst.named
    | some found =>
      obtain ⟨other, hother⟩ := hsome found hat
      rw [hother.unique hfirst]

end HotRename.SyntaxNode
