import Mathlib.Data.List.DropRight
import Mathlib.Data.Prod.Lex
import DistributedSync.Communication.NodeConfig
import DistributedSync.Library.Dict
import DistributedSync.Library.Selection

/-!
# Regions and routing

`RegionManager` of `region_manager.py`, `LatencyRouter` of `latency_router.py`, and the registration of the peers when
a node starts.  Latencies are of a type `ν`; how Python averages and rounds them is a parameter (`Latency`).

What the router answers depends on the last registration and the last fifty measurements of a node only
(`routing_of_history`).  The nearest node is the first of the least latency
(`nearest_first_least`), and the list with the local nodes in front begins with it (`local_first`).  Since every peer
is registered in the node's own region, a node that has started simulates no distances (`started_regions`).
-/

namespace DistributedSync

/-- `LATENCY_MATRIX`, in milliseconds. -/
def latencyMatrix : Dict String (Dict String Nat) :=
  Dict.empty.fill [
    ("us-east", Dict.empty.fill [("us-east", 1), ("ap-southeast", 180), ("eu-west", 90)]),
    ("ap-southeast", Dict.empty.fill [("us-east", 180), ("ap-southeast", 1), ("eu-west", 200)]),
    ("eu-west", Dict.empty.fill [("us-east", 90), ("ap-southeast", 200), ("eu-west", 1)])]

structure NodeInfo where
  host : String
  port : Int
  region : String

structure RegionManager where
  nodeId : String
  region : String
  nodeRegions : Dict String String
  nodeInfo : Dict String NodeInfo := .empty

namespace RegionManager

def new (nodeId region : String) : RegionManager where
  nodeId := nodeId
  region := region
  nodeRegions := Dict.empty.set nodeId region

def registerNode (s : RegionManager) (nodeId host : String) (port : Int) (region : String) : RegionManager :=
  { s with
    nodeRegions := s.nodeRegions.set nodeId region
    nodeInfo := s.nodeInfo.set nodeId ⟨host, port, region⟩ }

def getRegion (s : RegionManager) (nodeId : String) : Option String := s.nodeRegions.get? nodeId

def getLatency (fromRegion toRegion : String) : Nat :=
  (((latencyMatrix.get? fromRegion).getD .empty).get? toRegion).getD 100

example : getLatency "us-east" "eu-west" = 90 ∧ getLatency "us-east" "sa-east" = 100 := by decide

/-- The milliseconds that `simulate_latency` sleeps, if it does. -/
def simulateLatency (s : RegionManager) (targetNodeId : String) : Option Nat :=
  let latencyMs := getLatency s.region ((s.nodeRegions.get? targetNodeId).getD s.region)
  if 1 < latencyMs then some latencyMs else none

def getNodesInRegion (s : RegionManager) (region : String) : List String :=
  (s.nodeRegions.entries.filter fun e => e.2 = region).map Prod.fst

def getLocalNodes (s : RegionManager) : List String := s.getNodesInRegion s.region

def getAllRegions (s : RegionManager) : Dict String (List String) :=
  Dict.empty.collect (s.nodeRegions.entries.map fun e => (e.2, e.1))

/-- The regions are those that have nodes. -/
theorem get?_getAllRegions (s : RegionManager) (region : String) : s.getAllRegions.get? region =
    if s.getNodesInRegion region = [] then none else some (s.getNodesInRegion region) := by
  have hmem : region ∈ (s.nodeRegions.entries.map fun e => (e.2, e.1)).map Prod.fst ↔
      ¬s.getNodesInRegion region = [] := by
    simp [getNodesInRegion]
  rw [getAllRegions, Dict.get?_collect]
  simp only [hmem, ite_not]
  split
  · rfl
  · rw [List.filter_map, List.map_map, getNodesInRegion]
    rfl

end RegionManager

/-- How Python computes with latencies: `float(n)`, `sum(samples) / len(samples)`, `round(x, 2)` and
`float("inf")`. -/
class Latency (ν : Type) extends LinearOrder ν where
  ofNat : Nat → ν
  mean : List ν → ν
  round : ν → ν
  infinity : ν

structure LatencyRouter (ν : Type) where
  regionManager : RegionManager
  measuredLatencies : Dict String (List ν) := .empty

namespace LatencyRouter

variable {ν : Type}

/-- A row of the routing table. -/
structure Row (ν : Type) where
  nodeId : String
  avgLatencyMs : ν
  samples : Nat
  deriving DecidableEq

/-- `self._measured_latencies.get(node_id, [])`. -/
def samples (s : LatencyRouter ν) (nodeId : String) : List ν := (s.measuredLatencies.get? nodeId).getD []

/-- The last 50 samples are kept. -/
def recordLatency (s : LatencyRouter ν) (nodeId : String) (latencyMs : ν) : LatencyRouter ν :=
  let samples := s.samples nodeId ++ [latencyMs]
  { s with
    measuredLatencies := s.measuredLatencies.set nodeId (if 50 < samples.length then samples.rtake 50 else samples) }

/-! ### Histories -/

/-- What a router is told. -/
inductive Event (ν : Type) where
  | register (nodeId host : String) (port : Int) (region : String)
  | record (nodeId : String) (latencyMs : ν)

section

def handle (s : LatencyRouter ν) : Event ν → LatencyRouter ν
  | .register nodeId host port region =>
    { s with regionManager := s.regionManager.registerNode nodeId host port region }
  | .record nodeId latencyMs => s.recordLatency nodeId latencyMs

/-- The router of a node after a history. -/
def after (nodeId region : String) (h : List (Event ν)) : LatencyRouter ν :=
  h.foldl handle ⟨.new nodeId region, .empty⟩

/-- The registrations of a history with their regions, the node's own one first. -/
def registrations (nodeId region : String) (h : List (Event ν)) : List (String × String) :=
  (nodeId, region) :: h.filterMap fun
    | .register nid _ _ r => some (nid, r)
    | .record _ _ => none

/-- The region of the last registration. -/
def lastRegion (nodeId region : String) (h : List (Event ν)) (p : String) : Option String :=
  (((registrations nodeId region h).filter fun e => e.1 = p).getLast?).map Prod.snd

/-- The nodes whose last region it is, in the order of their first registrations. -/
def nodesOf (nodeId region : String) (h : List (Event ν)) (r : String) : List String :=
  ((registrations nodeId region h).map Prod.fst).eraseDups.filter fun p => lastRegion nodeId region h p = some r

/-- The measurements of a node. -/
def measurements (h : List (Event ν)) (p : String) : List ν :=
  h.filterMap fun
    | .register .. => none
    | .record nid latencyMs => if nid = p then some latencyMs else none

variable {nodeId region : String} {h : List (Event ν)}

theorem after_concat (e : Event ν) : after nodeId region (h ++ [e]) = (after nodeId region h).handle e := by
  rw [after, List.foldl_append, List.foldl_cons, List.foldl_nil, after]

private theorem after_region : (after nodeId region h).regionManager.region = region := by
  induction h using List.reverseRecOn with
  | nil => rfl
  | append_singleton h e ih =>
    rw [after_concat]
    cases e with
    | register nid host port r => exact ih
    | record nid latencyMs => exact ih

private theorem after_nodeRegions :
    (after nodeId region h).regionManager.nodeRegions = Dict.empty.fill (registrations nodeId region h) := by
  induction h using List.reverseRecOn with
  | nil => rfl
  | append_singleton h e ih =>
    rw [after_concat]
    cases e with
    | register nid host port r =>
      have hconcat : registrations nodeId region (h ++ [.register nid host port r]) =
          registrations nodeId region h ++ [(nid, r)] := by
        simp [registrations]
      rw [hconcat, Dict.fill_concat, ← ih]
      rfl
    | record nid latencyMs =>
      have hconcat : registrations nodeId region (h ++ [.record nid latencyMs]) = registrations nodeId region h := by
        simp [registrations]
      rw [hconcat, ← ih]
      rfl

private theorem getRegion_after (p : String) :
    (after nodeId region h).regionManager.getRegion p = lastRegion nodeId region h p := by
  rw [RegionManager.getRegion, after_nodeRegions, Dict.get?_fill]
  rfl

/-- The last samples of the last samples and a new one are the last ones of all. -/
theorem rtake_concat_rtake (l : List ν) (n : Nat) (x : ν) :
    (l.rtake (n + 1) ++ [x]).rtake (n + 1) = (l ++ [x]).rtake (n + 1) := by
  rw [List.rtake_concat_succ, List.rtake_concat_succ]
  congr 1
  rw [List.rtake_eq_reverse_take_reverse, List.rtake_eq_reverse_take_reverse, List.rtake_eq_reverse_take_reverse,
    List.reverse_reverse, List.take_take, Nat.min_eq_left (Nat.le_succ n)]

private theorem rtake_of_length_le {l : List ν} {n : Nat} (hl : l.length ≤ n) : l.rtake n = l := by
  rw [List.rtake, Nat.sub_eq_zero_of_le hl, List.drop_zero]

private theorem samples_recordLatency (s : LatencyRouter ν) (nid p : String) (latencyMs : ν) :
    (s.recordLatency nid latencyMs).samples p =
      if p = nid then (s.samples nid ++ [latencyMs]).rtake 50 else s.samples p := by
  have hlast : (if 50 < (s.samples nid ++ [latencyMs]).length then (s.samples nid ++ [latencyMs]).rtake 50
      else s.samples nid ++ [latencyMs]) = (s.samples nid ++ [latencyMs]).rtake 50 := by
    split
    · rfl
    · exact (rtake_of_length_le (not_lt.1 ‹_›)).symm
  rw [samples, recordLatency, Dict.get?_set, hlast]
  by_cases hp : p = nid
  · rw [if_pos hp, if_pos hp, Option.getD_some]
  · rw [if_neg hp, if_neg hp, samples]

private theorem samples_after (p : String) : (after nodeId region h).samples p = (measurements h p).rtake 50 := by
  induction h using List.reverseRecOn with
  | nil => rfl
  | append_singleton h e ih =>
    rw [after_concat]
    cases e with
    | register nid host port r =>
      have hconcat : measurements (h ++ [.register nid host port r]) p = measurements h p := by
        simp [measurements]
      rw [hconcat, ← ih]
      rfl
    | record nid latencyMs =>
      rw [handle, samples_recordLatency]
      by_cases hp : p = nid
      · subst hp
        have hconcat : measurements (h ++ [.record p latencyMs]) p = measurements h p ++ [latencyMs] := by
          simp [measurements]
        rw [if_pos rfl, ih, hconcat, rtake_concat_rtake]
      · have hne : ¬nid = p := fun heq => hp heq.symm
        have hconcat : measurements (h ++ [.record nid latencyMs]) p = measurements h p := by
          simp [measurements, hne]
        rw [if_neg hp, ih, hconcat]

variable (nodeId region h)

private theorem getNodesInRegion_after (r : String) :
    (after nodeId region h).regionManager.getNodesInRegion r = nodesOf nodeId region h r := by
  rw [RegionManager.getNodesInRegion, Dict.keys_of_value, after_nodeRegions, Dict.keys_fill]
  refine List.filter_congr fun p _ => ?_
  rw [Dict.get?_fill]
  rfl

end

/-! ### Local nodes -/

section

variable {α : Type} (s : LatencyRouter ν) (nodeId : α → String)

def isLocal (node : α) : Bool := (s.regionManager.getRegion (nodeId node)).getD "" = s.regionManager.region

/-- Where the node has a region, the local nodes are those that `get_local_nodes` lists. -/
theorem isLocal_iff (hregion : s.regionManager.region ≠ "") (node : α) :
    s.isLocal nodeId node ↔ nodeId node ∈ s.regionManager.getLocalNodes := by
  rw [RegionManager.getLocalNodes, RegionManager.getNodesInRegion, Dict.keys_of_value, List.mem_filter,
    decide_eq_true_iff, isLocal, decide_eq_true_iff, RegionManager.getRegion]
  cases hr : s.regionManager.nodeRegions.get? (nodeId node) with
  | none => simp [hregion.symm]
  | some r =>
    have hmem : nodeId node ∈ s.regionManager.nodeRegions.keys := Dict.mem_keys.2 ⟨r, hr⟩
    simp [hmem]

end

/-! ### What the router answers -/

variable [Latency ν]

def getAvgLatency (s : LatencyRouter ν) (nodeId : String) : ν :=
  let samples := s.samples nodeId
  if samples ≠ [] then Latency.mean samples
  else
    match s.regionManager.getRegion nodeId with
    | none => Latency.ofNat 100
    | some targetRegion =>
      -- the empty region counts as none
      if targetRegion ≠ "" then Latency.ofNat (RegionManager.getLatency s.regionManager.region targetRegion)
      else Latency.ofNat 100

section

variable {α : Type} (s : LatencyRouter ν) (nodeId : α → String)

/-- The candidates are dictionaries of any kind, and `nodeId` reads `node["node_id"]`. -/
def getNearestNode (candidates : List α) (exclude : List String) : Option α :=
  (candidates.foldl (fun best node =>
    if nodeId node ∈ exclude then best
    else
      let lat := s.getAvgLatency (nodeId node)
      if lat < best.2 then (some node, lat) else best) (none, Latency.infinity)).1

/-- The key that `get_local_first` sorts by. -/
def sortKey (node : α) : Lex (Nat × ν) :=
  let region := (s.regionManager.getRegion (nodeId node)).getD ""
  toLex (if region = s.regionManager.region then 0 else 1, s.getAvgLatency (nodeId node))

def getLocalFirst (candidates : List α) : List α :=
  candidates.insertionSort fun a b => s.sortKey nodeId a ≤ s.sortKey nodeId b

end

def getRoutingTable (s : LatencyRouter ν) : Dict String (List (Row ν)) :=
  s.regionManager.getAllRegions.mapValues fun nodes => nodes.map fun nid =>
    ⟨nid, Latency.round (s.getAvgLatency nid), (s.samples nid).length⟩

/-- The average of the last 50 measurements; without any, the simulated latency to the last region. -/
def latencyOf (nodeId region : String) (h : List (Event ν)) (p : String) : ν :=
  if measurements h p ≠ [] then Latency.mean ((measurements h p).rtake 50)
  else
    match lastRegion nodeId region h p with
    | none => Latency.ofNat 100
    | some r => if r ≠ "" then Latency.ofNat (RegionManager.getLatency region r) else Latency.ofNat 100

section

variable (nodeId region : String) (h : List (Event ν))

private theorem getAvgLatency_after (p : String) :
    (after nodeId region h).getAvgLatency p = latencyOf nodeId region h p := by
  have hnil : (measurements h p).rtake 50 ≠ [] ↔ measurements h p ≠ [] := by
    rw [not_iff_not, List.rtake_eq_reverse_take_reverse, List.reverse_eq_nil_iff, List.take_eq_nil_iff,
      List.reverse_eq_nil_iff]
    simp
  rw [getAvgLatency, samples_after, getRegion_after, after_region, latencyOf]
  simp only [hnil]

/-- The latencies of the nodes, and a row of the table for every node in a region, and no region without nodes. -/
theorem routing_of_history :
    (∀ p, (after nodeId region h).getAvgLatency p = latencyOf nodeId region h p) ∧
      ∀ r, (after nodeId region h).getRoutingTable.get? r =
        if nodesOf nodeId region h r = [] then none
        else some ((nodesOf nodeId region h r).map fun p =>
          ⟨p, Latency.round (latencyOf nodeId region h p), min 50 (measurements h p).length⟩) := by
  refine ⟨getAvgLatency_after nodeId region h, fun r => ?_⟩
  rw [getRoutingTable, Dict.get?_mapValues, RegionManager.get?_getAllRegions, getNodesInRegion_after]
  split
  · rfl
  · refine congrArg some (List.map_congr_left fun p _ => ?_)
    have hcount : ((measurements h p).rtake 50).length = min 50 (measurements h p).length := by
      rw [List.rtake, List.length_drop]
      omega
    rw [getAvgLatency_after, samples_after, hcount]

end

/-! ### The nearest node -/

section

variable {α : Type} (s : LatencyRouter ν) (nodeId : α → String)

private theorem getNearestNode_eq (candidates : List α) (exclude : List String) :
    s.getNearestNode nodeId candidates exclude =
      ((candidates.filter fun node => nodeId node ∉ exclude).argmin fun node => s.getAvgLatency (nodeId node)).filter
        fun node => s.getAvgLatency (nodeId node) < Latency.infinity := by
  rw [← Selection.firstBelow_eq_argmin, Selection.firstBelow, List.foldl_filter, getNearestNode]
  congr 2
  funext best node
  by_cases hex : nodeId node ∈ exclude
  · simp [hex]
  · simp [hex]

/-- Among the candidates that are not excluded and have a finite latency, the first of the least latency. -/
theorem nearest_first_least (candidates : List α) (exclude : List String) (node : α) :
    s.getNearestNode nodeId candidates exclude = some node ↔
      ∃ before after, candidates = before ++ node :: after ∧ nodeId node ∉ exclude ∧
        s.getAvgLatency (nodeId node) < Latency.infinity ∧
        (∀ x ∈ before, nodeId x ∉ exclude → s.getAvgLatency (nodeId node) < s.getAvgLatency (nodeId x)) ∧
        ∀ x ∈ after, nodeId x ∉ exclude → s.getAvgLatency (nodeId node) ≤ s.getAvgLatency (nodeId x) := by
  rw [getNearestNode_eq, Option.filter_eq_some_iff, Selection.argmin_eq_some_iff_split]
  constructor
  · rintro ⟨⟨before, after, hsplit, hbefore, hafter⟩, hfinite⟩
    obtain ⟨front, rest, rfl, rfl, hrest⟩ := List.filter_eq_append_iff.1 hsplit
    obtain ⟨skipped, back, rfl, hskipped, hnode, rfl⟩ := List.filter_eq_cons_iff.1 hrest
    refine ⟨front ++ skipped, back, by simp, by simpa using hnode, by simpa using hfinite, ?_, ?_⟩
    · intro x hx hex
      rcases List.mem_append.1 hx with hx | hx
      · exact hbefore x (List.mem_filter.2 ⟨hx, by simpa using hex⟩)
      · exact absurd hex (by simpa using hskipped x hx)
    · exact fun x hx hex => hafter x (List.mem_filter.2 ⟨hx, by simpa using hex⟩)
  · rintro ⟨before, after, rfl, hnode, hfinite, hbefore, hafter⟩
    refine ⟨⟨before.filter fun x => nodeId x ∉ exclude, after.filter fun x => nodeId x ∉ exclude, ?_, ?_, ?_⟩,
      by simpa using hfinite⟩
    · rw [List.filter_append, List.filter_cons_of_pos (by simpa using hnode)]
    · intro x hx
      exact hbefore x (List.mem_filter.1 hx).1 (by simpa using (List.mem_filter.1 hx).2)
    · intro x hx
      exact hafter x (List.mem_filter.1 hx).1 (by simpa using (List.mem_filter.1 hx).2)

/-! ### The local nodes first -/

/-- A stable sort by latency. -/
def byLatency (candidates : List α) : List α :=
  candidates.insertionSort fun a b => s.getAvgLatency (nodeId a) ≤ s.getAvgLatency (nodeId b)

private theorem sortKey_le_iff (a b : α) : s.sortKey nodeId a ≤ s.sortKey nodeId b ↔
    (s.isLocal nodeId a ∧ ¬s.isLocal nodeId b) ∨
      (s.isLocal nodeId a = s.isLocal nodeId b ∧ s.getAvgLatency (nodeId a) ≤ s.getAvgLatency (nodeId b)) := by
  rw [sortKey, sortKey, Prod.Lex.toLex_le_toLex]
  by_cases ha : (s.regionManager.getRegion (nodeId a)).getD "" = s.regionManager.region
  · by_cases hb : (s.regionManager.getRegion (nodeId b)).getD "" = s.regionManager.region
    · simp [isLocal, ha, hb]
    · simp [isLocal, ha, hb]
  · by_cases hb : (s.regionManager.getRegion (nodeId b)).getD "" = s.regionManager.region
    · simp [isLocal, ha, hb]
    · simp [isLocal, ha, hb]

private theorem getLocalFirst_eq (candidates : List α) : s.getLocalFirst nodeId candidates =
    s.byLatency nodeId (candidates.filter (s.isLocal nodeId)) ++
      s.byLatency nodeId (candidates.filter fun node => !s.isLocal nodeId node) :=
  Selection.insertionSort_classes fun a b => s.sortKey_le_iff nodeId a b

private theorem head?_byLatency (candidates : List α) :
    ((s.byLatency nodeId candidates).head?.filter fun node => s.getAvgLatency (nodeId node) < Latency.infinity) =
      s.getNearestNode nodeId candidates [] := by
  have hall : (candidates.filter fun node => nodeId node ∉ ([] : List String)) = candidates := by simp
  rw [getNearestNode_eq, hall, ← Selection.head?_insertionSort]
  rfl

/-- The candidates are reordered: the local ones and then the others, each by latency and otherwise in their order.
The first one, unless its latency is infinite, is the nearest of the local nodes, or of all if no node is local. -/
theorem local_first (candidates : List α) :
    (s.getLocalFirst nodeId candidates).Perm candidates ∧
      (s.getLocalFirst nodeId candidates =
        s.byLatency nodeId (candidates.filter (s.isLocal nodeId)) ++
          s.byLatency nodeId (candidates.filter fun node => !s.isLocal nodeId node)) ∧
      (∀ l : List α, l.Sublist candidates → (l.Pairwise fun a b => s.sortKey nodeId a ≤ s.sortKey nodeId b) →
        l.Sublist (s.getLocalFirst nodeId candidates)) ∧
      ((s.getLocalFirst nodeId candidates).head?.filter fun node =>
          s.getAvgLatency (nodeId node) < Latency.infinity) =
        s.getNearestNode nodeId
          (if ∃ node ∈ candidates, s.isLocal nodeId node then candidates.filter (s.isLocal nodeId) else candidates)
          [] := by
  refine ⟨List.perm_insertionSort _ candidates, s.getLocalFirst_eq nodeId candidates, ?_, ?_⟩
  · exact fun l hl hsorted => List.sublist_insertionSort hsorted hl
  · rw [getLocalFirst_eq]
    by_cases hlocal : ∃ node ∈ candidates, s.isLocal nodeId node
    · have hne : (s.byLatency nodeId (candidates.filter (s.isLocal nodeId))) ≠ [] := by
        obtain ⟨node, hnode, hloc⟩ := hlocal
        exact List.ne_nil_of_mem ((List.mem_insertionSort _).2 (List.mem_filter.2 ⟨hnode, hloc⟩))
      rw [if_pos hlocal, List.head?_append_of_ne_nil _ hne, head?_byLatency]
    · have hnone : candidates.filter (s.isLocal nodeId) = [] := by
        rw [List.filter_eq_nil_iff]
        exact fun node hnode hloc => hlocal ⟨node, hnode, hloc⟩
      have hall : (candidates.filter fun node => !s.isLocal nodeId node) = candidates := by
        rw [List.filter_eq_self]
        intro node hnode
        rw [Bool.not_eq_true']
        exact Bool.eq_false_iff.2 fun hloc => hlocal ⟨node, hnode, hloc⟩
      rw [if_neg hlocal, hnone, hall]
      exact s.head?_byLatency nodeId candidates

end

end LatencyRouter

/-! ### A node that has started -/

namespace DistributedNode

/-- The region manager of a node after the loop of `start` over `self.peers`. -/
def startRegions (nodeId nodeRegion : String) (peers : List NodeAddress) : RegionManager :=
  peers.foldl (fun s peer => s.registerNode peer.nodeId peer.host peer.port nodeRegion) (.new nodeId nodeRegion)

variable (nodeId nodeRegion : String) (peers : List NodeAddress)

private theorem startRegions_concat (peer : NodeAddress) : startRegions nodeId nodeRegion (peers ++ [peer]) =
    (startRegions nodeId nodeRegion peers).registerNode peer.nodeId peer.host peer.port nodeRegion := by
  rw [startRegions, List.foldl_append, List.foldl_cons, List.foldl_nil, startRegions]

private theorem startRegions_region : (startRegions nodeId nodeRegion peers).region = nodeRegion := by
  induction peers using List.reverseRecOn with
  | nil => rfl
  | append_singleton peers peer ih =>
    rw [startRegions_concat]
    exact ih

/-- The node itself and its peers are all in the region of the node. -/
theorem startRegions_nodeRegions : (startRegions nodeId nodeRegion peers).nodeRegions =
    Dict.empty.fill ((nodeId :: peers.map NodeAddress.nodeId).map fun p => (p, nodeRegion)) := by
  induction peers using List.reverseRecOn with
  | nil => rfl
  | append_singleton peers peer ih =>
    have hconcat : ((nodeId :: (peers ++ [peer]).map NodeAddress.nodeId).map fun p => (p, nodeRegion)) =
        ((nodeId :: peers.map NodeAddress.nodeId).map fun p => (p, nodeRegion)) ++ [(peer.nodeId, nodeRegion)] := by
      simp
    rw [startRegions_concat, hconcat, Dict.fill_concat, ← ih]
    rfl

private theorem region_of_started {p r : String}
    (h : (startRegions nodeId nodeRegion peers).nodeRegions.get? p = some r) : r = nodeRegion := by
  rw [startRegions_nodeRegions, Dict.get?_fill, Option.map_eq_some_iff] at h
  obtain ⟨e, he, rfl⟩ := h
  have hmem := (List.mem_filter.1 (List.mem_of_getLast? he)).1
  obtain ⟨q, -, rfl⟩ := List.mem_map.1 hmem
  rfl

private theorem keys_of_started : (startRegions nodeId nodeRegion peers).nodeRegions.keys =
    (nodeId :: peers.map NodeAddress.nodeId).eraseDups := by
  rw [startRegions_nodeRegions, Dict.keys_fill, List.map_map]
  congr 1
  exact List.map_id _

private theorem getRegion_of_started {p : String} (hp : p ∈ (startRegions nodeId nodeRegion peers).nodeRegions.keys) :
    (startRegions nodeId nodeRegion peers).getRegion p = some nodeRegion := by
  obtain ⟨r, hr⟩ := Dict.mem_keys.1 hp
  rw [RegionManager.getRegion, hr, region_of_started nodeId nodeRegion peers hr]

private theorem getAllRegions_of_started : (startRegions nodeId nodeRegion peers).getAllRegions.entries =
    [(nodeRegion, (nodeId :: peers.map NodeAddress.nodeId).eraseDups)] := by
  have hentries := Dict.entries_eq_map fun p hp => getRegion_of_started nodeId nodeRegion peers (p := p) hp
  rw [RegionManager.getAllRegions, hentries, keys_of_started, List.map_map]
  refine Dict.entries_collect_const ?_ nodeRegion
  rw [List.eraseDups_cons]
  exact List.cons_ne_nil _ _

private theorem getLatency_self (region : String) :
    RegionManager.getLatency region region = if region ∈ latencyMatrix.keys then 1 else 100 := by
  have hkeys : latencyMatrix.keys = ["us-east", "ap-southeast", "eu-west"] := by decide
  by_cases hregion : region ∈ latencyMatrix.keys
  · rw [if_pos hregion]
    rw [hkeys] at hregion
    simp only [List.mem_cons, List.not_mem_nil, or_false] at hregion
    rcases hregion with rfl | rfl | rfl <;> decide
  · rw [if_neg hregion, RegionManager.getLatency, Dict.get?_eq_none hregion]
    rfl

private theorem simulateLatency_of_started (target : String) :
    (startRegions nodeId nodeRegion peers).simulateLatency target =
      if nodeRegion ∈ latencyMatrix.keys then none else some 100 := by
  have htarget : ((startRegions nodeId nodeRegion peers).nodeRegions.get? target).getD nodeRegion = nodeRegion := by
    cases hr : (startRegions nodeId nodeRegion peers).nodeRegions.get? target with
    | none => rfl
    | some r => exact region_of_started nodeId nodeRegion peers hr
  rw [RegionManager.simulateLatency, startRegions_region, htarget, getLatency_self]
  by_cases hregion : nodeRegion ∈ latencyMatrix.keys
  · rw [if_pos hregion, if_pos hregion]
    rfl
  · rw [if_neg hregion, if_neg hregion]
    rfl

private theorem getAvgLatency_of_started {ν : Type} [Latency ν] {p : String}
    (hp : p ∈ (startRegions nodeId nodeRegion peers).nodeRegions.keys) :
    (⟨startRegions nodeId nodeRegion peers, .empty⟩ : LatencyRouter ν).getAvgLatency p =
      Latency.ofNat (if nodeRegion ∈ latencyMatrix.keys then 1 else 100) := by
  have hsamples : (⟨startRegions nodeId nodeRegion peers, .empty⟩ : LatencyRouter ν).samples p = [] := rfl
  rw [LatencyRouter.getAvgLatency, hsamples, getRegion_of_started nodeId nodeRegion peers hp, startRegions_region]
  by_cases hempty : nodeRegion = ""
  · rw [hempty]
    rfl
  · simp [hempty, getLatency_self]

/-- There is one region, that of the node, with the node and its peers.  The routing table has the latency of that
region to itself and no samples, and nothing is delayed unless the region is not in the matrix. -/
theorem started_regions (ν : Type) [Latency ν] :
    (startRegions nodeId nodeRegion peers).getAllRegions.entries =
        [(nodeRegion, (nodeId :: peers.map NodeAddress.nodeId).eraseDups)] ∧
      (⟨startRegions nodeId nodeRegion peers, .empty⟩ : LatencyRouter ν).getRoutingTable.entries =
        [(nodeRegion, (nodeId :: peers.map NodeAddress.nodeId).eraseDups.map fun p =>
          ⟨p, Latency.round (Latency.ofNat (if nodeRegion ∈ latencyMatrix.keys then 1 else 100)), 0⟩)] ∧
      ∀ target, (startRegions nodeId nodeRegion peers).simulateLatency target =
        if nodeRegion ∈ latencyMatrix.keys then none else some 100 := by
  refine ⟨getAllRegions_of_started nodeId nodeRegion peers, ?_, simulateLatency_of_started nodeId nodeRegion peers⟩
  rw [LatencyRouter.getRoutingTable, Dict.entries_mapValues, getAllRegions_of_started, List.map_singleton]
  congr 2
  refine List.map_congr_left fun p hp => ?_
  rw [getAvgLatency_of_started nodeId nodeRegion peers (by rwa [keys_of_started])]
  rfl

end DistributedNode

end DistributedSync
