import HotRename.Graph.Reach
import Mathlib.Data.Set.Finite.Basic
import Mathlib.Order.WellFounded

/-!
# Cycles and what lies behind them

A node leads to another when the other can be reached in one or more steps. A node that leads to
itself lies on a cycle, and what can be reached from a cycle lies behind it. Main statements:

* `Reach.mono`                   only the successors of reached nodes matter
* `behindCycle_of_predecessors`  where every node has a predecessor, every node lies behind a cycle
-/

namespace HotRename

variable {α : Type u} {next next' : α → List α} {roots roots' : List α} {a b c : α}

namespace Reach

/-- What can be reached from reached nodes is reached. -/
theorem trans (hroots : ∀ r ∈ roots', Reach next roots r) (h : Reach next roots' a) :
    Reach next roots a := by
  induction h with
  | root hr => exact hroots _ hr
  | step _ hb ih => exact .step ih hb

/-- A walk reaches the same nodes when the successors of the nodes it reaches are kept. -/
theorem mono (hnext : ∀ a, Reach next roots a → ∀ b ∈ next a, b ∈ next' a)
    (h : Reach next roots a) : Reach next' roots a := by
  induction h with
  | root hr => exact .root hr
  | step ha hb ih => exact .step ih (hnext _ ha _ hb)

/-- Relations that agree on what one of them reaches reach the same. -/
theorem congr (hnext : ∀ a, Reach next roots a → ∀ b, b ∈ next' a ↔ b ∈ next a) :
    Reach next' roots a ↔ Reach next roots a := by
  constructor
  · intro h
    induction h with
    | root hr => exact .root hr
    | step _ hb ih => exact .step ih ((hnext _ ih _).mp hb)
  · exact mono fun x hx y hy => (hnext x hx y).mpr hy

/-- A set that holds the roots and all successors of its members holds what is reached. -/
theorem mem_of_closed {P : α → Prop} (hroots : ∀ r ∈ roots, P r)
    (hclosed : ∀ a, P a → ∀ b ∈ next a, P b) (h : Reach next roots a) : P a := by
  induction h with
  | root hr => exact hroots _ hr
  | step _ hb ih => exact hclosed _ ih _ hb

/-- Every node is reached from itself. -/
theorem self (a : α) : Reach next [a] a :=
  .root (List.mem_singleton.mpr rfl)

end Reach

/-- The second node can be reached from the first in one or more steps. -/
def LeadsTo (next : α → List α) (a b : α) : Prop :=
  Reach next (next a) b

namespace LeadsTo

/-- A node leads to its successors. -/
theorem of_mem (h : b ∈ next a) : LeadsTo next a b :=
  .root h

/-- To lead to a node is transitive. -/
theorem trans (hab : LeadsTo next a b) (hbc : LeadsTo next b c) : LeadsTo next a c :=
  Reach.trans (fun _ hr => .step hab hr) hbc

/-- What is reached from a node is led to by what leads to the node. -/
theorem trans_reach (hab : LeadsTo next a b) (hbc : Reach next [b] c) : LeadsTo next a c := by
  refine Reach.trans (fun r hr => ?_) hbc
  cases List.mem_singleton.mp hr
  exact hab

/-- The nodes that a reached node leads to are reached. -/
theorem reach (hab : LeadsTo next a b) (ha : Reach next roots a) : Reach next roots b :=
  Reach.trans (fun _ hr => .step ha hr) hab

/-- Only the successors of the first node and of the nodes it leads to matter. -/
theorem mono (ha : Reach next roots a)
    (hnext : ∀ a, Reach next roots a → ∀ b ∈ next a, b ∈ next' a) (h : LeadsTo next a b) :
    LeadsTo next' a b := by
  have hfirst : Reach next' (next a) b := Reach.mono (fun x hx => hnext x (reach hx ha)) h
  exact Reach.trans (fun r hr => .root (hnext a ha r hr)) hfirst

/-- Relations that agree on reached nodes lead to the same nodes from there. -/
theorem congr (hnext : ∀ a, Reach next roots a → ∀ b, b ∈ next' a ↔ b ∈ next a)
    (ha : Reach next roots a) : LeadsTo next' a b ↔ LeadsTo next a b := by
  constructor
  · refine mono ((Reach.congr hnext).mpr ha) fun x hx y hy => ?_
    exact (hnext x ((Reach.congr hnext).mp hx) y).mp hy
  · exact mono ha fun x hx y hy => (hnext x hx y).mpr hy

end LeadsTo

/-- Of two nodes of which the second is reached from the first, they are the same or the first
    leads to the second. -/
theorem Reach.eq_or_leadsTo (h : Reach next [a] b) : b = a ∨ LeadsTo next a b := by
  induction h with
  | root hr => exact .inl (List.mem_singleton.mp hr)
  | step _ hb ih =>
    rcases ih with rfl | ih
    · exact .inr (.of_mem hb)
    · exact .inr (.step ih hb)

/-- The node can be reached from itself in one or more steps. -/
def OnCycle (next : α → List α) (a : α) : Prop :=
  LeadsTo next a a

/-- The node lies on a cycle, or can be reached from one. -/
def BehindCycle (next : α → List α) (a : α) : Prop :=
  ∃ c, OnCycle next c ∧ Reach next [c] a

/-- What lies on a cycle lies behind it. -/
theorem OnCycle.behindCycle (h : OnCycle next a) : BehindCycle next a :=
  ⟨a, h, Reach.self a⟩

/-- So do the successors of what lies behind it. -/
theorem BehindCycle.step (h : BehindCycle next a) (hb : b ∈ next a) : BehindCycle next b := by
  obtain ⟨c, hc, hreach⟩ := h
  exact ⟨c, hc, .step hreach hb⟩

/-- In a finite set in which every node has a predecessor, every node lies behind a cycle: a walk
    backwards can be continued for ever, so it comes to some node twice. -/
theorem behindCycle_of_predecessors {nodes : List α}
    (hpred : ∀ a ∈ nodes, ∃ p ∈ nodes, a ∈ next p) (ha : a ∈ nodes) : BehindCycle next a := by
  by_contra hfree
  -- Among the nodes behind no cycle, leading to each other is a strict order.
  let Free := { x // x ∈ nodes ∧ ¬ BehindCycle next x }
  let before : Free → Free → Prop := fun x y => LeadsTo next x.1 y.1
  have hfinite : Finite Free := ((List.finite_toSet nodes).subset fun _ hx => hx.1).to_subtype
  have htrans : IsTrans Free before := ⟨fun _ _ _ => LeadsTo.trans⟩
  have hirrefl : Std.Irrefl before := ⟨fun x hx => x.2.2 (OnCycle.behindCycle hx)⟩
  have hwf : WellFounded before := Finite.wellFounded_of_trans_of_irrefl before
  -- Its least element has a predecessor, which lies behind no cycle either.
  obtain ⟨least, -, hleast⟩ := hwf.has_min Set.univ ⟨⟨a, ha, hfree⟩, trivial⟩
  obtain ⟨p, hp, hedge⟩ := hpred least.1 least.2.1
  have hpfree : ¬ BehindCycle next p := fun h => least.2.2 (h.step hedge)
  exact hleast ⟨p, hp, hpfree⟩ trivial (LeadsTo.of_mem hedge)

end HotRename
