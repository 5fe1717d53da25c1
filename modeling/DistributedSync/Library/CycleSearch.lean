import Mathlib.Data.Finset.Card
import Mathlib.Data.List.Chain
import Mathlib.Data.List.Nodup
import Mathlib.Logic.Relation

/-!
# Depth-first search for cycles

The recursive search that keeps the visited nodes, the nodes on the recursion stack and the path to the current
node, and that reports the end of the path from `n` on whenever it meets a neighbour `n` on the stack.  The graph is
given by the lists of neighbours, in the order in which the search visits them.

Every reported list is a simple cycle (`detect_sound`), every strongly connected part of the graph with a cycle
contributes one (`detect_complete`), and the search ends (`detect_total`).  Each of the three follows from one
statement about a call (`Explored`), proved by induction on the depth and, in it, on the neighbours.
-/

namespace CycleSearch

variable {κ : Type}

/-- A list of nodes with an edge from each to the next and from the last to the first. -/
structure IsClosedWalk (E : κ → κ → Prop) (c : List κ) : Prop where
  chain : c.IsChain E
  closes : ∃ a ∈ c.head?, ∃ b ∈ c.getLast?, E b a

/-- A closed walk through distinct nodes. -/
structure IsCycle (E : κ → κ → Prop) (c : List κ) : Prop extends IsClosedWalk E c where
  nodup : c.Nodup

theorem IsClosedWalk.imp {E E' : κ → κ → Prop} {c : List κ} (h : IsClosedWalk E c) (hE : ∀ a b, E a b → E' a b) :
    IsClosedWalk E' c := by
  obtain ⟨first, hfirst, last, hlast, hclose⟩ := h.closes
  exact ⟨h.chain.imp hE, first, hfirst, last, hlast, hE _ _ hclose⟩

/-- From a node of a closed walk every other one can be reached: on to the last node, to the first one and on. -/
theorem IsClosedWalk.reach {E : κ → κ → Prop} {c : List κ} (h : IsClosedWalk E c) {a b : κ} (ha : a ∈ c)
    (hb : b ∈ c) : Relation.ReflTransGen E a b := by
  obtain ⟨first, hfirst, last, hlast, hE⟩ := h.closes
  have hpair : c.Pairwise (Relation.ReflTransGen E) :=
    List.isChain_iff_pairwise.1 (h.chain.imp fun _ _ => Relation.ReflTransGen.single)
  have hto : Relation.ReflTransGen E a last := by
    obtain ⟨front, rfl⟩ := List.getLast?_eq_some_iff.1 hlast
    rcases List.mem_append.1 ha with ha | ha
    · exact (List.pairwise_append.1 hpair).2.2 a ha last (List.mem_singleton_self _)
    · rw [List.mem_singleton.1 ha]
  have hfrom : Relation.ReflTransGen E first b := by
    obtain ⟨rest, rfl⟩ := List.head?_eq_some_iff.1 hfirst
    rcases List.mem_cons.1 hb with rfl | hb
    · exact .refl
    · exact (List.pairwise_cons.1 hpair).1 b hb
  exact (hto.tail hE).trans hfrom

theorem IsClosedWalk.exists_transGen {E : κ → κ → Prop} {c : List κ} (h : IsClosedWalk E c) :
    ∃ v ∈ c, Relation.TransGen E v v := by
  obtain ⟨first, hfirst, last, hlast, hE⟩ := h.closes
  have hmem : first ∈ c := List.mem_of_mem_head? hfirst
  exact ⟨first, hmem, Relation.TransGen.tail' (h.reach hmem (List.mem_of_getLast? hlast)) hE⟩

/-- A closed walk that may stay where it is, but visits two different nodes, goes round. -/
theorem IsClosedWalk.transGen {E : κ → κ → Prop} {c : List κ} (h : IsClosedWalk (fun a b => a = b ∨ E a b) c)
    {a b : κ} (ha : a ∈ c) (hb : b ∈ c) (hne : a ≠ b) : Relation.TransGen E a a := by
  have hreach : ∀ {x y : κ}, x ∈ c → y ∈ c → Relation.ReflTransGen E x y := by
    intro x y hx hy
    refine Relation.ReflTransGen.trans_induction_on (h.reach hx hy) (fun _ => .refl) ?_ fun _ _ => .trans
    rintro x y (rfl | hxy)
    · exact .refl
    · exact .single hxy
  rcases Relation.reflTransGen_iff_eq_or_transGen.1 (hreach ha hb) with heq | hab
  · exact absurd heq.symm hne
  · exact hab.trans_left (hreach hb ha)

/-- The variables of the search. -/
structure Search (κ : Type) where
  visited : Finset κ := ∅
  recStack : Finset κ := ∅
  path : List κ := []
  cycles : List (List κ) := []

section

variable [DecidableEq κ]

namespace Search

def enter (s : Search κ) (node : κ) : Search κ :=
  { s with visited := insert node s.visited, recStack := insert node s.recStack, path := s.path ++ [node] }

def leave (s : Search κ) (node : κ) : Search κ :=
  { s with path := s.path.dropLast, recStack := s.recStack.erase node }

def report (s : Search κ) (neighbor : κ) : Search κ :=
  { s with cycles := s.cycles ++ [s.path.drop (s.path.idxOf neighbor)] }

end Search

/-- The loop over the neighbours of a node, where `dfs` is the recursive call. -/
def scan (dfs : κ → Search κ → Option (Search κ)) : List κ → Search κ → Option (Search κ)
  | [], s => some s
  | n :: ns, s =>
    if n ∉ s.visited then (dfs n s).bind (scan dfs ns)
    else if n ∈ s.recStack then scan dfs ns (s.report n)
    else scan dfs ns s

/-- The search from a node that has not been visited; `none` when it gets deeper than `fuel`. -/
def dfs (neighbors : κ → List κ) : Nat → κ → Search κ → Option (Search κ)
  | 0, _, _ => none
  | fuel + 1, node, s =>
    (scan (dfs neighbors fuel) (neighbors node) (s.enter node)).map fun s => s.leave node

/-- The search from each of the nodes in turn. -/
def detect (neighbors : κ → List κ) (fuel : Nat) : List κ → Search κ → Option (Search κ)
  | [], s => some s
  | node :: nodes, s =>
    if node ∉ s.visited then (dfs neighbors fuel node s).bind (detect neighbors fuel nodes)
    else detect neighbors fuel nodes s

end

/-! ### What a call does -/

/-- The edges from a node to its neighbours. -/
def Edge (neighbors : κ → List κ) (a b : κ) : Prop := b ∈ neighbors a

/-- A set of nodes that contains a cycle as soon as it contains one of its nodes. -/
def CycleClosed (E : κ → κ → Prop) (K : κ → Prop) : Prop :=
  ∀ c, IsCycle E c → ∀ a ∈ c, K a → ∀ b ∈ c, K b

namespace Search

/-- The stack is the path, a simple chain of edges through visited nodes, and what is reported are cycles. -/
structure Sound (E : κ → κ → Prop) (s : Search κ) : Prop where
  nodup : s.path.Nodup
  chain : s.path.IsChain E
  stack : ∀ x, x ∈ s.recStack ↔ x ∈ s.path
  seen : ∀ x ∈ s.path, x ∈ s.visited
  cycles : ∀ c ∈ s.cycles, IsCycle E c

/-- No reported cycle lies in `K`. -/
def Avoids (K : κ → Prop) (s : Search κ) : Prop := ∀ c ∈ s.cycles, ∃ x ∈ c, ¬ K x

/-- From a node whose search has ended no infinite walk in `K` starts. -/
def Cleared (E : κ → κ → Prop) (K : κ → Prop) (s : Search κ) : Prop :=
  ∀ x ∈ s.visited, x ∉ s.path → Acc (fun b a => E a b ∧ K a ∧ K b) x

/-- What a part of the search leaves behind. -/
structure Explored (E : κ → κ → Prop) (s s' : Search κ) : Prop where
  sound : s'.Sound E
  path : s'.path = s.path
  visited : s.visited ⊆ s'.visited
  cycles : s.cycles ⊆ s'.cycles
  cleared : ∀ K, CycleClosed E K → s'.Avoids K → s.Cleared E K → s'.Cleared E K

variable {E : κ → κ → Prop} {s s' s'' : Search κ}

theorem Avoids.mono {K : κ → Prop} (h : s'.Avoids K) (hc : s.cycles ⊆ s'.cycles) : s.Avoids K :=
  fun c hm => h c (hc hm)

theorem Explored.refl (h : s.Sound E) : s.Explored E s where
  sound := h
  path := rfl
  visited := Finset.Subset.refl _
  cycles := List.Subset.refl _
  cleared _ _ _ h := h

theorem Explored.trans (h : s.Explored E s') (h' : s'.Explored E s'') : s.Explored E s'' where
  sound := h'.sound
  path := h'.path.trans h.path
  visited := h.visited.trans h'.visited
  cycles := List.Subset.trans h.cycles h'.cycles
  cleared K hK ha hc := h'.cleared K hK ha (h.cleared K hK (ha.mono h'.cycles) hc)

private theorem Sound.not_mem_path (h : s.Sound E) {n : κ} (hn : n ∉ s.visited) : n ∉ s.path :=
  fun hm => hn (h.seen n hm)

end Search

private theorem sound_empty (E : κ → κ → Prop) : ({} : Search κ).Sound E where
  nodup := List.nodup_nil
  chain := .nil
  stack x := by simp
  seen x hx := by cases hx
  cycles c hc := by cases hc

/-- The nodes from which `v` can be reached and that can be reached from `v`. -/
def StronglyConnected (E : κ → κ → Prop) (v x : κ) : Prop :=
  Relation.ReflTransGen E v x ∧ Relation.ReflTransGen E x v

section

variable {E : κ → κ → Prop}

theorem StronglyConnected.cycleClosed (v : κ) : CycleClosed E (StronglyConnected E v) := by
  rintro c hc a ha ⟨hva, hav⟩ b hb
  exact ⟨hva.trans (hc.reach ha hb), (hc.reach hb ha).trans hav⟩

/-- A node that lies on a cycle starts an infinite walk through its strongly connected part. -/
theorem StronglyConnected.not_acc {v : κ} (hv : Relation.TransGen E v v) {x : κ} (hx : StronglyConnected E v x) :
    ¬ Acc (fun b a => E a b ∧ StronglyConnected E v a ∧ StronglyConnected E v b) x := by
  intro hacc
  induction hacc with
  | intro x _ ih =>
    have hxv : Relation.TransGen E x v := hv.trans_right hx.2
    obtain ⟨y, hxy, hyv⟩ := Relation.TransGen.head'_iff.1 hxv
    have hy : StronglyConnected E v y := ⟨hx.1.tail hxy, hyv⟩
    exact ih y ⟨hxy, hx, hy⟩ hy

end

variable [DecidableEq κ]

namespace Search

variable {E : κ → κ → Prop} {s s' s'' : Search κ}

/-- The part of the path from `n` on is a cycle when the last node of the path has an edge to `n`. -/
theorem Sound.isCycle_drop (h : s.Sound E) {node n : κ} (hlast : s.path.getLast? = some node) (hn : n ∈ s.path)
    (hE : E node n) : IsCycle E (s.path.drop (s.path.idxOf n)) := by
  have hlt : s.path.idxOf n < s.path.length := List.idxOf_lt_length_iff.2 hn
  have hhead : (s.path.drop (s.path.idxOf n)).head? = some n := by
    rw [List.head?_drop, List.getElem?_eq_getElem hlt, List.getElem_idxOf hlt]
  have hend : (s.path.drop (s.path.idxOf n)).getLast? = some node := by
    rw [List.getLast?_drop, if_neg (Nat.not_le.2 hlt), hlast]
  exact ⟨⟨h.chain.drop _, n, hhead, node, hend, hE⟩, h.nodup.sublist (List.drop_sublist _ _)⟩

theorem Sound.report (h : s.Sound E) {node n : κ} (hlast : s.path.getLast? = some node) (hn : n ∈ s.path)
    (hE : E node n) : s.Explored E (s.report n) where
  sound := { h with
    cycles := fun c hc => by
      rcases List.mem_append.1 hc with hc | hc
      · exact h.cycles c hc
      · rw [List.mem_singleton.1 hc]
        exact h.isCycle_drop hlast hn hE }
  path := rfl
  visited := Finset.Subset.refl _
  cycles := List.subset_append_left _ _
  cleared _ _ _ h := h

private theorem Sound.enter (h : s.Sound E) {node : κ} (hnew : node ∉ s.visited)
    (hE : ∀ a ∈ s.path.getLast?, E a node) : (s.enter node).Sound E where
  nodup := by
    have hpath := h.not_mem_path hnew
    rw [Search.enter, List.nodup_append]
    refine ⟨h.nodup, List.nodup_singleton node, fun a ha b hb => ?_⟩
    rw [List.mem_singleton.1 hb]
    rintro rfl
    exact hpath ha
  chain := by
    rw [Search.enter, List.isChain_append]
    refine ⟨h.chain, List.isChain_singleton node, fun a ha b hb => ?_⟩
    have hb : b = node := by simpa using hb.symm
    rw [hb]
    exact hE a ha
  stack x := by simp only [Search.enter, Finset.mem_insert, List.mem_append, List.mem_singleton, h.stack, or_comm]
  seen x hx := by
    rcases List.mem_append.1 hx with hx | hx
    · exact Finset.mem_insert_of_mem (h.seen x hx)
    · rw [List.mem_singleton.1 hx]
      exact Finset.mem_insert_self _ _
  cycles := h.cycles

/-- Back from a node to the path that led to it. -/
theorem Sound.leave (h : s'.Sound E) (h₀ : s.Sound E) {node : κ} (hnew : node ∉ s.path)
    (hpath : s'.path = s.path ++ [node]) : (s'.leave node).Sound E := by
  have hdrop : (s'.leave node).path = s.path := by
    rw [Search.leave, hpath, List.dropLast_concat]
  refine ⟨?_, ?_, fun x => ?_, fun x hx => ?_, h.cycles⟩
  · rw [hdrop]
    exact h₀.nodup
  · rw [hdrop]
    exact h₀.chain
  · rw [hdrop, Search.leave, Finset.mem_erase, h.stack, hpath, List.mem_append, List.mem_singleton]
    constructor
    · rintro ⟨hne, hx | hx⟩
      · exact hx
      · exact absurd hx hne
    · intro hx
      refine ⟨?_, Or.inl hx⟩
      rintro rfl
      exact hnew hx
  · rw [hdrop] at hx
    refine h.seen x ?_
    rw [hpath]
    exact List.mem_append_left _ hx

end Search

/-! ### The search over a graph -/

open Search

variable {neighbors : κ → List κ} {s s' : Search κ}

/-- What is known of a recursive call. -/
def Explores (neighbors : κ → List κ) (dfs : κ → Search κ → Option (Search κ)) : Prop :=
  ∀ n s s', s.Sound (Edge neighbors) → n ∉ s.visited → (∀ a ∈ s.path.getLast?, Edge neighbors a n) →
    dfs n s = some s' → s.Explored (Edge neighbors) s' ∧ n ∈ s'.visited

/-- The loop over neighbours of `node`: in a part of the graph in which no cycle is reported, the search from each
of them has ended. -/
theorem scan_explored {dfs : κ → Search κ → Option (Search κ)} (hdfs : Explores neighbors dfs) {node : κ}
    {ns : List κ} (hns : ∀ n ∈ ns, Edge neighbors node n) (hs : s.Sound (Edge neighbors))
    (hlast : s.path.getLast? = some node) (h : scan dfs ns s = some s') :
    s.Explored (Edge neighbors) s' ∧ ∀ K, CycleClosed (Edge neighbors) K → s'.Avoids K → K node →
      ∀ n ∈ ns, K n → n ∈ s'.visited ∧ n ∉ s'.path := by
  induction ns generalizing s with
  | nil =>
    cases h
    exact ⟨.refl hs, fun _ _ _ _ n hn => by cases hn⟩
  | cons n ns ih =>
    have hE := hns n List.mem_cons_self
    have hrest := fun n hn => hns n (List.mem_cons_of_mem _ hn)
    rw [scan] at h
    by_cases hnew : n ∉ s.visited
    · rw [if_pos hnew] at h
      obtain ⟨t, ht, h⟩ := Option.bind_eq_some_iff.1 h
      -- a neighbour that is not visited is searched before the rest
      obtain ⟨hexp, hseen⟩ := hdfs n s t hs hnew (fun a ha => by
        rw [hlast, Option.mem_some_iff] at ha
        rwa [← ha]) ht
      obtain ⟨hexp', hdone⟩ := ih hrest hexp.sound (by rw [hexp.path, hlast]) h
      refine ⟨hexp.trans hexp', fun K hK ha hnode m hm hKm => ?_⟩
      rcases List.mem_cons.1 hm with rfl | hm
      · refine ⟨hexp'.visited hseen, ?_⟩
        rw [hexp'.path, hexp.path]
        exact hs.not_mem_path hnew
      · exact hdone K hK ha hnode m hm hKm
    · rw [if_neg hnew] at h
      by_cases hstack : n ∈ s.recStack
      · rw [if_pos hstack] at h
        -- a neighbour on the path closes a cycle
        have hpath : n ∈ s.path := (hs.stack n).1 hstack
        have hexp := hs.report hlast hpath hE
        obtain ⟨hexp', hdone⟩ := ih hrest hexp.sound hlast h
        refine ⟨hexp.trans hexp', fun K hK ha hnode m hm hKm => ?_⟩
        rcases List.mem_cons.1 hm with rfl | hm
        · -- the reported cycle lies in `K`, which was to be avoided
          have hc := hs.isCycle_drop hlast hpath hE
          obtain ⟨x, hx, hKx⟩ := ha _ (hexp'.cycles (List.mem_append_right _ (List.mem_singleton_self _)))
          obtain ⟨a, hhead, -⟩ := hc.closes
          have hmem : m ∈ s.path.drop (s.path.idxOf m) := by
            have hlt : s.path.idxOf m < s.path.length := List.idxOf_lt_length_iff.2 hpath
            rw [List.drop_eq_getElem_cons hlt, List.getElem_idxOf hlt]
            exact List.mem_cons_self
          exact absurd (hK _ hc m hmem hKm x hx) hKx
        · exact hdone K hK ha hnode m hm hKm
      · rw [if_neg hstack] at h
        obtain ⟨hexp, hdone⟩ := ih hrest hs hlast h
        refine ⟨hexp, fun K hK ha hnode m hm hKm => ?_⟩
        rcases List.mem_cons.1 hm with rfl | hm
        · refine ⟨hexp.visited (not_not.1 hnew), ?_⟩
          rw [hexp.path]
          exact fun hm => hstack ((hs.stack m).2 hm)
        · exact hdone K hK ha hnode m hm hKm

/-- The induction is on the depth of the recursion. -/
theorem dfs_explores (neighbors : κ → List κ) (fuel : Nat) : Explores neighbors (dfs neighbors fuel) := by
  induction fuel with
  | zero =>
    intro n s s' _ _ _ h
    cases h
  | succ fuel ih =>
    intro node s s' hs hnew hE h
    rw [dfs] at h
    obtain ⟨t, ht, rfl⟩ := Option.map_eq_some_iff.1 h
    have hnot := hs.not_mem_path hnew
    obtain ⟨hexp, hdone⟩ := scan_explored ih (fun n hn => hn) (hs.enter hnew hE) List.getLast?_concat ht
    have hpath : t.path = s.path ++ [node] := hexp.path
    have hvisited : insert node s.visited ⊆ t.visited := hexp.visited
    have hleave : (t.leave node).path = s.path := by
      rw [Search.leave, hpath, List.dropLast_concat]
    have hnode : node ∈ t.visited := hvisited (Finset.mem_insert_self _ _)
    refine ⟨⟨hexp.sound.leave hs hnot hpath, hleave, (Finset.subset_insert _ _).trans hvisited, hexp.cycles,
      fun K hK ha hc x hx hxp => ?_⟩, hnode⟩
    have hcleared : t.Cleared (Edge neighbors) K := by
      refine hexp.cleared K hK ha fun y hy hyp => ?_
      have hyp : y ∉ s.path ++ [node] := hyp
      rw [List.mem_append, List.mem_singleton, not_or] at hyp
      exact hc y ((Finset.mem_insert.1 hy).resolve_left hyp.2) hyp.1
    -- the search of the node itself ends after those of its neighbours
    by_cases hxn : x = node
    · subst hxn
      refine Acc.intro x ?_
      rintro y ⟨hy, hKx, hKy⟩
      obtain ⟨hyv, hyp⟩ := hdone K hK ha hKx y hy hKy
      exact hcleared y hyv hyp
    · refine hcleared x hx ?_
      rw [hpath, List.mem_append, List.mem_singleton]
      rw [hleave] at hxp
      exact fun hm => hm.elim hxp hxn

private theorem detect_explored {fuel : Nat} {nodes : List κ} (hs : s.Sound (Edge neighbors)) (hpath : s.path = [])
    (h : detect neighbors fuel nodes s = some s') : s.Explored (Edge neighbors) s' ∧ ∀ n ∈ nodes, n ∈ s'.visited := by
  induction nodes generalizing s with
  | nil =>
    cases h
    exact ⟨.refl hs, fun n hn => by cases hn⟩
  | cons n nodes ih =>
    rw [detect] at h
    by_cases hnew : n ∉ s.visited
    · rw [if_pos hnew] at h
      obtain ⟨t, ht, h⟩ := Option.bind_eq_some_iff.1 h
      obtain ⟨hexp, hseen⟩ := dfs_explores neighbors fuel n s t hs hnew (fun a ha => by
        rw [hpath] at ha
        cases ha) ht
      obtain ⟨hexp', hall⟩ := ih hexp.sound (hexp.path.trans hpath) h
      refine ⟨hexp.trans hexp', fun m hm => ?_⟩
      rcases List.mem_cons.1 hm with rfl | hm
      · exact hexp'.visited hseen
      · exact hall m hm
    · rw [if_neg hnew] at h
      obtain ⟨hexp, hall⟩ := ih hs hpath h
      refine ⟨hexp, fun m hm => ?_⟩
      rcases List.mem_cons.1 hm with rfl | hm
      · exact hexp.visited (not_not.1 hnew)
      · exact hall m hm

/-- Every reported list is a simple cycle of the graph. -/
theorem detect_sound {fuel : Nat} {nodes : List κ} (h : detect neighbors fuel nodes {} = some s') :
    ∀ c ∈ s'.cycles, IsCycle (Edge neighbors) c :=
  (detect_explored (sound_empty _) rfl h).1.sound.cycles

/-- A node that lies on a cycle has a reported cycle in its strongly connected part. -/
theorem detect_complete {fuel : Nat} {nodes : List κ} (h : detect neighbors fuel nodes {} = some s') {v : κ}
    (hnodes : v ∈ nodes) (hv : Relation.TransGen (Edge neighbors) v v) :
    ∃ c ∈ s'.cycles, ∀ x ∈ c, StronglyConnected (Edge neighbors) v x := by
  by_contra hnone
  obtain ⟨hexp, hseen⟩ := detect_explored (sound_empty _) rfl h
  have hself : StronglyConnected (Edge neighbors) v v := ⟨.refl, .refl⟩
  have havoids : s'.Avoids (StronglyConnected (Edge neighbors) v) := by
    intro c hc
    by_contra hall
    exact hnone ⟨c, hc, fun x hx => by_contra fun hK => hall ⟨x, hx, hK⟩⟩
  have hcleared := hexp.cleared _ (StronglyConnected.cycleClosed v) havoids fun x hx => by cases hx
  have hpath : v ∉ s'.path := by
    rw [hexp.path]
    exact List.not_mem_nil
  exact StronglyConnected.not_acc hv hself (hcleared v (hseen v hnodes) hpath)

/-! ### The search ends -/

section

variable {nodes : Finset κ} (hclosed : ∀ a ∈ nodes, ∀ b ∈ neighbors a, b ∈ nodes)

include hclosed

/-- The induction is on the depth: each call visits a new node. -/
theorem dfs_total (fuel : Nat) : ∀ node s, node ∈ nodes → node ∉ s.visited → (nodes \ s.visited).card ≤ fuel →
    ∃ s', dfs neighbors fuel node s = some s' ∧ s.visited ⊆ s'.visited := by
  induction fuel with
  | zero =>
    intro node s hnode hnew hcard
    have hempty : nodes \ s.visited = ∅ := Finset.card_eq_zero.1 (Nat.le_zero.1 hcard)
    have hmem : node ∈ nodes \ s.visited := Finset.mem_sdiff.2 ⟨hnode, hnew⟩
    rw [hempty] at hmem
    cases hmem
  | succ fuel ih =>
    intro node s hnode hnew hcard
    have hscan : ∀ ns : List κ, (∀ n ∈ ns, n ∈ nodes) → ∀ s : Search κ, (nodes \ s.visited).card ≤ fuel →
        ∃ s', scan (dfs neighbors fuel) ns s = some s' ∧ s.visited ⊆ s'.visited := by
      intro ns hns
      induction ns with
      | nil => exact fun s _ => ⟨s, rfl, Finset.Subset.refl _⟩
      | cons n ns ihns =>
        intro s hcard
        have hrest := ihns fun m hm => hns m (List.mem_cons_of_mem _ hm)
        rw [scan]
        by_cases hn : n ∉ s.visited
        · obtain ⟨t, ht, hsub⟩ := ih n s (hns n List.mem_cons_self) hn hcard
          have hle := Finset.card_le_card (Finset.sdiff_subset_sdiff (Finset.Subset.refl nodes) hsub)
          obtain ⟨s', hs', hsub'⟩ := hrest t (hle.trans hcard)
          rw [if_pos hn, ht]
          exact ⟨s', hs', hsub.trans hsub'⟩
        · rw [if_neg hn]
          by_cases hstack : n ∈ s.recStack
          · rw [if_pos hstack]
            exact hrest _ hcard
          · rw [if_neg hstack]
            exact hrest s hcard
    have hless : (nodes \ (s.enter node).visited).card < (nodes \ s.visited).card := by
      refine Finset.card_lt_card (Finset.ssubset_iff_of_subset ?_ |>.2 ⟨node, ?_, ?_⟩)
      · exact Finset.sdiff_subset_sdiff (Finset.Subset.refl nodes) (Finset.subset_insert _ _)
      · exact Finset.mem_sdiff.2 ⟨hnode, hnew⟩
      · exact fun hm => (Finset.mem_sdiff.1 hm).2 (Finset.mem_insert_self _ _)
    obtain ⟨t, ht, hsub⟩ := hscan (neighbors node) (hclosed node hnode) (s.enter node) (by omega)
    refine ⟨t.leave node, ?_, (Finset.subset_insert node s.visited).trans hsub⟩
    rw [dfs, ht]
    rfl

/-- As many nested calls as there are nodes are enough. -/
theorem detect_total {roots : List κ} (hroots : ∀ r ∈ roots, r ∈ nodes) (s : Search κ) :
    ∃ s', detect neighbors nodes.card roots s = some s' := by
  induction roots generalizing s with
  | nil => exact ⟨s, rfl⟩
  | cons r roots ih =>
    have hrest := ih fun m hm => hroots m (List.mem_cons_of_mem _ hm)
    rw [detect]
    by_cases hnew : r ∉ s.visited
    · have hcard : (nodes \ s.visited).card ≤ nodes.card := Finset.card_le_card Finset.sdiff_subset
      obtain ⟨t, ht, -⟩ := dfs_total hclosed nodes.card r s (hroots r List.mem_cons_self) hnew hcard
      rw [if_pos hnew, ht]
      exact hrest t
    · rw [if_neg hnew]
      exact hrest s

end

end CycleSearch
