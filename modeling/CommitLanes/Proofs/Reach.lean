import CommitLanes.Reach
import Mathlib.Data.Finset.Card
import Mathlib.Data.Finset.Range
import Mathlib.Logic.Relation

/-! # What a search reaches

A search that is deep enough adds to the nodes seen exactly what a line of successors leads to, and it
leaves nobody of these half done: what it adds has all its successors in the result. Only what was
seen before may lack some, and the search does not look at that again. -/

namespace CommitLanes

variable {next : Nat → List Nat} {seen mid result nodes : List Nat} {node : Nat}

/-- A line of successors leads from one node to another one. -/
def LeadsTo (next : Nat → List Nat) : Nat → Nat → Prop :=
  Relation.ReflTransGen fun a b => b ∈ next a

/-- The result of a search from some nodes. -/
structure Reached (next : Nat → List Nat) (seen nodes result : List Nat) : Prop where
  seen_subset : seen ⊆ result
  nodes_subset : nodes ⊆ result
  closed : ∀ a ∈ result, a ∈ seen ∨ next a ⊆ result
  sound : ∀ a ∈ result, a ∈ seen ∨ ∃ node ∈ nodes, LeadsTo next node a

namespace Reached

theorem nil (next : Nat → List Nat) (seen : List Nat) : Reached next seen [] seen where
  seen_subset := List.Subset.refl seen
  nodes_subset := List.nil_subset seen
  closed _ ha := .inl ha
  sound _ ha := .inl ha

theorem of_mem (next : Nat → List Nat) (hseen : node ∈ seen) : Reached next seen [node] seen where
  seen_subset := List.Subset.refl seen
  nodes_subset _ hnode := List.mem_singleton.1 hnode ▸ hseen
  closed _ ha := .inl ha
  sound _ ha := .inl ha

/-- One node after the other is searched from, with what is seen by then. -/
theorem cons (first : Reached next seen [node] mid) (rest : Reached next mid nodes result) :
    Reached next seen (node :: nodes) result where
  seen_subset := List.Subset.trans first.seen_subset rest.seen_subset
  nodes_subset := List.cons_subset.2
    ⟨rest.seen_subset (first.nodes_subset (List.mem_singleton_self node)), rest.nodes_subset⟩
  closed a ha := by
    rcases rest.closed a ha with hmid | hall
    · exact (first.closed a hmid).imp_right fun hall => List.Subset.trans hall rest.seen_subset
    · exact .inr hall
  sound a ha := by
    rcases rest.sound a ha with hmid | ⟨b, hb, hleads⟩
    · rcases first.sound a hmid with hseen | ⟨b, hb, hleads⟩
      · exact .inl hseen
      · exact .inr ⟨b, List.mem_singleton.1 hb ▸ List.mem_cons_self, hleads⟩
    · exact .inr ⟨b, List.mem_cons_of_mem node hb, hleads⟩

/-- A node is entered by searching from its successors. -/
theorem enter (inner : Reached next (node :: seen) (next node) result) :
    Reached next seen [node] result where
  seen_subset := (List.cons_subset.1 inner.seen_subset).2
  nodes_subset _ hnode :=
    List.mem_singleton.1 hnode ▸ (List.cons_subset.1 inner.seen_subset).1
  closed a ha := by
    rcases inner.closed a ha with hseen | hall
    · rcases List.mem_cons.1 hseen with rfl | hseen
      · exact .inr inner.nodes_subset
      · exact .inl hseen
    · exact .inr hall
  sound a ha := by
    rcases inner.sound a ha with hseen | ⟨b, hb, hleads⟩
    · rcases List.mem_cons.1 hseen with rfl | hseen
      · exact .inr ⟨a, List.mem_singleton_self a, .refl⟩
      · exact .inl hseen
    · exact .inr ⟨node, List.mem_singleton_self node, .head hb hleads⟩

end Reached

/-! ## Depth -/

/-- The number of nodes of a set that have not been seen. -/
def unseen (nodes : Finset Nat) (seen : List Nat) : Nat := (nodes.filter (· ∉ seen)).card

theorem unseen_le (nodes : Finset Nat) (seen : List Nat) : unseen nodes seen ≤ nodes.card :=
  Finset.card_filter_le _ _

private theorem unseen_anti {nodes : Finset Nat} (hsubset : seen ⊆ mid) :
    unseen nodes mid ≤ unseen nodes seen := by
  refine Finset.card_le_card fun a ha => ?_
  obtain ⟨hmem, hnew⟩ := Finset.mem_filter.1 ha
  exact Finset.mem_filter.2 ⟨hmem, fun hold => hnew (hsubset hold)⟩

private theorem unseen_cons_lt {nodes : Finset Nat} (hnode : node ∈ nodes) (hnew : node ∉ seen) :
    unseen nodes (node :: seen) < unseen nodes seen := by
  refine Finset.card_lt_card ((Finset.ssubset_iff_of_subset fun a ha => ?_).2 ⟨node, ?_, ?_⟩)
  · obtain ⟨hmem, hnew⟩ := Finset.mem_filter.1 ha
    exact Finset.mem_filter.2 ⟨hmem, fun hold => hnew (List.mem_cons_of_mem node hold)⟩
  · exact Finset.mem_filter.2 ⟨hnode, hnew⟩
  · exact fun hmem => (Finset.mem_filter.1 hmem).2 List.mem_cons_self

/-- In a set closed under successors a depth above the number of nodes not seen is never used up: each
node that is entered is one that is not seen any more further down. -/
theorem reached_reach {all : Finset Nat} (hclosed : ∀ a ∈ all, ∀ b ∈ next a, b ∈ all) {depth : Nat}
    (hnode : node ∈ all) (hdepth : unseen all seen < depth) :
    Reached next seen [node] (reach next depth seen node) := by
  induction depth generalizing seen node with
  | zero => exact absurd hdepth (Nat.not_lt_zero _)
  | succ depth ih =>
    have hfold (nodes : List Nat) (hnodes : ∀ b ∈ nodes, b ∈ all) (seen : List Nat)
        (hseen : unseen all seen < depth) :
        Reached next seen nodes (nodes.foldl (reach next depth) seen) := by
      induction nodes generalizing seen with
      | nil => exact .nil next seen
      | cons b rest hrest =>
        have hfirst := ih (hnodes b List.mem_cons_self) hseen
        refine hfirst.cons (hrest (fun c hc => hnodes c (List.mem_cons_of_mem b hc)) _ ?_)
        exact (unseen_anti hfirst.seen_subset).trans_lt hseen
    unfold reach
    split
    · next hold => exact .of_mem next hold
    · next hnew =>
      have hless := unseen_cons_lt hnode hnew
      exact .enter (hfold (next node) (hclosed node hnode) _ (by omega))

/-- What is reached from a node when nothing has been seen yet. -/
theorem mem_reach_nil_iff {all : Finset Nat} (hclosed : ∀ a ∈ all, ∀ b ∈ next a, b ∈ all) {depth : Nat}
    (hnode : node ∈ all) (hdepth : all.card < depth) (a : Nat) :
    a ∈ reach next depth [] node ↔ LeadsTo next node a := by
  have reached := reached_reach hclosed hnode ((unseen_le all []).trans_lt hdepth)
  constructor
  · intro ha
    obtain ⟨b, hb, hleads⟩ := (reached.sound a ha).resolve_left List.not_mem_nil
    exact List.mem_singleton.1 hb ▸ hleads
  · intro hleads
    induction hleads with
    | refl => exact reached.nodes_subset (List.mem_singleton_self node)
    | tail _ hnext ih => exact (reached.closed _ ih).resolve_left List.not_mem_nil hnext

/-! ## One node after the other

The search can also be made with a list of the nodes that are still to be looked at. -/

/-- A search under way. -/
structure Worklist where
  seen : List Nat
  /-- The nodes that are still to be looked at, of which the first one is next. -/
  pending : List Nat

namespace Worklist

variable {goal : Nat → Prop} {work : Worklist} {count : Nat} {found : Bool}

/-- Nodes that are seen for the first time are to be looked at next. -/
def meet (work : Worklist) (nodes : List Nat) : Worklist :=
  nodes.foldl (fun work node =>
    if node ∈ work.seen then work else ⟨node :: work.seen, node :: work.pending⟩) work

/-- The search ends when `count` nodes have been looked at, either because the last one of them is a
goal or because there is none left. -/
inductive Ends (next : Nat → List Nat) (goal : Nat → Prop) : Worklist → Nat → Bool → Prop
  | none {seen : List Nat} : Ends next goal ⟨seen, []⟩ 0 false
  | goal {seen pending : List Nat} {node : Nat} (hgoal : goal node) :
    Ends next goal ⟨seen, node :: pending⟩ 1 true
  | other {seen pending : List Nat} {node count : Nat} {found : Bool} (hother : ¬ goal node)
    (later : Ends next goal (meet ⟨seen, pending⟩ (next node)) count found) :
    Ends next goal ⟨seen, node :: pending⟩ (count + 1) found

/-- What meeting some nodes changes. -/
structure Meets (nodes : List Nat) (work met : Worklist) : Prop where
  seen_subset : work.seen ⊆ met.seen
  nodes_subset : nodes ⊆ met.seen
  pending_subset : work.pending ⊆ met.pending
  seen : ∀ a ∈ met.seen, a ∈ work.seen ∨ (a ∈ nodes ∧ a ∈ met.pending)
  pending : ∀ a ∈ met.pending, a ∈ work.pending ∨ a ∈ nodes

theorem meets_meet (work : Worklist) (nodes : List Nat) : Meets nodes work (work.meet nodes) := by
  induction nodes generalizing work with
  | nil =>
    exact ⟨List.Subset.refl _, List.nil_subset _, List.Subset.refl _, fun _ => .inl, fun _ => .inl⟩
  | cons node rest ih =>
    rw [meet, List.foldl_cons]
    split
    · next hold =>
      obtain ⟨hseen, hrest, hpending, hmet, hnext⟩ := ih work
      exact ⟨hseen, List.cons_subset.2 ⟨hseen hold, hrest⟩, hpending,
        fun a ha => (hmet a ha).imp_right (And.imp_left (List.mem_cons_of_mem node)),
        fun a ha => (hnext a ha).imp_right (List.mem_cons_of_mem node)⟩
    · obtain ⟨hseen, hrest, hpending, hmet, hnext⟩ := ih ⟨node :: work.seen, node :: work.pending⟩
      rw [List.cons_subset] at hseen hpending
      refine ⟨hseen.2, List.cons_subset.2 ⟨hseen.1, hrest⟩, hpending.2, fun a ha => ?_, fun a ha => ?_⟩
      · rcases hmet a ha with hold | ⟨hmem, hlater⟩
        · rcases List.mem_cons.1 hold with rfl | hold
          · exact .inr ⟨List.mem_cons_self, hpending.1⟩
          · exact .inl hold
        · exact .inr ⟨List.mem_cons_of_mem node hmem, hlater⟩
      · rcases hnext a ha with hold | hmem
        · rcases List.mem_cons.1 hold with rfl | hold
          · exact .inr List.mem_cons_self
          · exact .inl hold
        · exact .inr (List.mem_cons_of_mem node hmem)

/-- Each node that is put on the list is one fewer to be seen. -/
theorem length_pending_meet {all : Finset Nat} {nodes : List Nat} (hall : ∀ a ∈ nodes, a ∈ all)
    (work : Worklist) : (work.meet nodes).pending.length + unseen all (work.meet nodes).seen ≤
      work.pending.length + unseen all work.seen := by
  induction nodes generalizing work with
  | nil => exact le_rfl
  | cons node rest ih =>
    rw [List.forall_mem_cons] at hall
    rw [meet, List.foldl_cons]
    split
    · exact ih hall.2 work
    · next hnew =>
      have hless := unseen_cons_lt hall.1 hnew
      refine (ih hall.2 ⟨node :: work.seen, node :: work.pending⟩).trans ?_
      dsimp only
      rw [List.length_cons]
      omega

/-- If all successors are in a finite set then the search ends, whatever cycles there are. -/
theorem exists_ends {all : Finset Nat} (hall : ∀ a, ∀ b ∈ next a, b ∈ all) (goal : Nat → Prop)
    {bound : Nat} (hbound : work.pending.length + unseen all work.seen ≤ bound) :
    ∃ count ≤ bound, ∃ found, Ends next goal work count found := by
  induction bound generalizing work with
  | zero =>
    obtain ⟨seen, pending⟩ := work
    obtain rfl : pending = [] := List.eq_nil_of_length_eq_zero (by dsimp only at hbound; omega)
    exact ⟨0, le_rfl, false, .none⟩
  | succ bound ih =>
    obtain ⟨seen, pending⟩ := work
    cases pending with
    | nil => exact ⟨0, Nat.zero_le _, false, .none⟩
    | cons node rest =>
      by_cases hgoal : goal node
      · exact ⟨1, Nat.succ_le_succ (Nat.zero_le bound), true, .goal hgoal⟩
      · have hmeet := length_pending_meet (hall node) ⟨seen, rest⟩
        dsimp only [List.length_cons] at hbound hmeet
        obtain ⟨count, hcount, found, later⟩ := ih (hmeet.trans (by omega))
        exact ⟨count + 1, Nat.succ_le_succ hcount, found, .other hgoal later⟩

/-- What a search from a node has come to: all nodes that it has met are reached from there, and those
that are not pending have been looked at in vain. -/
structure Searches (next : Nat → List Nat) (goal : Nat → Prop) (node : Nat) (work : Worklist) :
    Prop where
  leads : ∀ a ∈ work.pending, LeadsTo next node a
  looked : ∀ a, a = node ∨ a ∈ work.seen → a ∈ work.pending ∨ (¬ goal a ∧ next a ⊆ work.seen)

theorem searches_start (next : Nat → List Nat) (goal : Nat → Prop) (node : Nat) :
    Searches next goal node ⟨[], [node]⟩ where
  leads _ ha := List.mem_singleton.1 ha ▸ .refl
  looked _ ha := .inl (List.mem_singleton.2 (ha.resolve_right List.not_mem_nil))

theorem Searches.meet {seen pending : List Nat} {first : Nat}
    (searches : Searches next goal node ⟨seen, first :: pending⟩) (hother : ¬ goal first) :
    Searches next goal node (meet ⟨seen, pending⟩ (next first)) := by
  have hmeets := meets_meet ⟨seen, pending⟩ (next first)
  refine ⟨fun a ha => ?_, fun a ha => ?_⟩
  · rcases hmeets.pending a ha with hold | hnext
    · exact searches.leads a (List.mem_cons_of_mem first hold)
    · exact (searches.leads first List.mem_cons_self).tail hnext
  · have hold (hmet : a = node ∨ a ∈ seen) : a ∈ (Worklist.meet ⟨seen, pending⟩ (next first)).pending ∨
        (¬ goal a ∧ next a ⊆ (Worklist.meet ⟨seen, pending⟩ (next first)).seen) := by
      rcases searches.looked a hmet with hpending | ⟨hgoal, hnext⟩
      · rcases List.mem_cons.1 hpending with rfl | hpending
        · exact .inr ⟨hother, hmeets.nodes_subset⟩
        · exact .inl (hmeets.pending_subset hpending)
      · exact .inr ⟨hgoal, List.Subset.trans hnext hmeets.seen_subset⟩
    rcases ha with hnode | hseen
    · exact hold (.inl hnode)
    · rcases hmeets.seen a hseen with hseen | ⟨-, hpending⟩
      · exact hold (.inr hseen)
      · exact .inl hpending

/-- The search finds a goal exactly if one can be reached. -/
theorem Ends.found_iff (ends : Ends next goal work count found)
    (searches : Searches next goal node work) :
    found = true ↔ ∃ a, LeadsTo next node a ∧ goal a := by
  induction ends with
  | @none seen =>
    refine iff_of_false Bool.false_ne_true ?_
    rintro ⟨a, hleads, hgoal⟩
    have hlooked (a : Nat) (ha : a = node ∨ a ∈ seen) :=
      (searches.looked a ha).resolve_left List.not_mem_nil
    -- Nothing is pending, and so all that can be reached has been met.
    have hmet : a = node ∨ a ∈ seen := by
      clear hgoal
      induction hleads with
      | refl => exact .inl rfl
      | tail _ hnext ih => exact .inr ((hlooked _ ih).2 hnext)
    exact (hlooked a hmet).1 hgoal
  | goal hgoal => exact iff_of_true rfl ⟨_, searches.leads _ List.mem_cons_self, hgoal⟩
  | other hother _ ih => exact ih (searches.meet hother)

end Worklist

end CommitLanes
