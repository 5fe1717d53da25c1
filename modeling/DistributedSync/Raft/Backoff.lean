import Mathlib.Logic.Function.Iterate
import DistributedSync.Raft.Refinement

/-!
# Backing off after rejected appends

A leader that keeps replicating to one peer with nothing in between: `_replicate_entries` builds the request from
`next_index`, the peer handles it, and `_process_ae_resp` lowers `next_index` when the consistency check failed.
Rejections leave both logs alone, so `next_index` goes down by one each time until the check succeeds, at the latest
at the start of the log (`Duo.Ready.backs_off`).
-/

namespace DistributedSync.Raft

variable {ι κ : Type}

/-- A leader and one of its peers. -/
structure Duo (ι κ : Type) where
  leader : RaftNode ι κ
  follower : RaftNode ι κ

theorem LogsMatch.symm {log log' : List (LogEntry κ)} (h : LogsMatch log log') : LogsMatch log' log := by
  intro i e e' he he' ht
  exact (h i e' e he' he ht.symm).symm

variable {me you : Self ι} {d : Duo ι κ}

def Duo.request (me you : Self ι) (d : Duo ι κ) : RaftMessage ι κ := appendRequest me d.leader you.nodeId

/-- The consistency check of the next round. -/
def Duo.Passes (me you : Self ι) (d : Duo ι κ) : Prop :=
  prevMatches d.follower.log ((d.request me you).data.prevLogIndex.getD 0)
    ((d.request me you).data.prevLogTerm.getD 0) = true

/-- The check succeeds at the start of the log. -/
theorem Duo.passes_of_le_one (hn : (d.leader.nextIndex you.nodeId).getD 1 ≤ 1) : d.Passes me you := by
  have hzero : (d.leader.nextIndex you.nodeId).getD 1 - 1 = 0 := by omega
  simp [Duo.Passes, Duo.request, appendRequest, prevMatches, hzero]

variable [DecidableEq ι]

def Duo.answer (me you : Self ι) (d : Duo ι κ) : Outcome (RaftNode ι κ) (Reply ι) :=
  handleMessage you d.follower (d.request me you)

/-- The leader sends its request, the peer handles it and the leader processes the reply.  Nothing comes back from a
handler that raises. -/
def Duo.round (me you : Self ι) (d : Duo ι κ) : Duo ι κ :=
  match d.answer me you with
  | ⟨f, .ok resp⟩ => ⟨(processAeResp me d.leader you.nodeId (d.request me you) resp).state, f⟩
  | ⟨f, .error _⟩ => ⟨d.leader, f⟩

/-- The request of the next round is one that `_replicate_entries` builds, and the peer's reply to it has this
`success`. -/
def Duo.Replies (me you : Self ι) (d : Duo ι κ) (success : Bool) : Prop :=
  (you.nodeId, d.request me you) ∈ replicateEntries me d.leader ∧
    ∃ resp, (d.answer me you).result = .ok resp ∧ resp.success = some success

/-- The peer is in no later term than the leader, and their logs match. -/
structure Duo.Ready (me you : Self ι) (d : Duo ι κ) : Prop where
  leader : d.leader.state = .leader
  peer : you.nodeId ∈ me.peers
  term : d.follower.currentTerm ≤ d.leader.currentTerm
  leader_pos : ∀ e ∈ d.leader.log, 1 ≤ e.term
  follower_pos : ∀ e ∈ d.follower.log, 1 ≤ e.term
  logs : LogsMatch d.leader.log d.follower.log

/-! ### One round -/

/-- A request of a term that is not over is answered by the consistency check. -/
theorem handleMessage_append (me : Self ι) (s : RaftNode ι κ) {msg : RaftMessage ι κ}
    (hm : msg.msgType = .appendEntries) (ht : s.currentTerm ≤ msg.term) :
    handleMessage me s msg =
      if prevMatches s.log (msg.data.prevLogIndex.getD 0) (msg.data.prevLogTerm.getD 0) then
        ⟨(acceptEntries (follow s msg.senderId msg.term) msg.data).state,
          .ok (appendReply me (follow s msg.senderId msg.term) true)⟩
      else ⟨follow s msg.senderId msg.term, .ok (appendReply me (follow s msg.senderId msg.term) false)⟩ := by
  have hterm : (observeTerm s msg.term).currentTerm ≤ msg.term := by
    rw [observeTerm_currentTerm]
    omega
  simp only [handleMessage, hm, handleAppendEntries, hterm, ↓reduceIte, observeTerm_follow]
  obtain ⟨ci, la, ap, pr, cs, hf, -⟩ := acceptEntries_spec (follow s msg.senderId msg.term) msg.data
  rw [hf]
  rfl

namespace Duo.Ready

private theorem answer_eq (h : d.Ready me you) : d.answer me you =
    if prevMatches d.follower.log ((d.request me you).data.prevLogIndex.getD 0)
        ((d.request me you).data.prevLogTerm.getD 0) then
      ⟨(acceptEntries (follow d.follower me.nodeId d.leader.currentTerm) (d.request me you).data).state,
        .ok (appendReply you (follow d.follower me.nodeId d.leader.currentTerm) true)⟩
    else ⟨follow d.follower me.nodeId d.leader.currentTerm,
      .ok (appendReply you (follow d.follower me.nodeId d.leader.currentTerm) false)⟩ :=
  handleMessage_append you d.follower rfl h.term

theorem replies (h : d.Ready me you) {success : Bool} {resp : Reply ι} (hr : (d.answer me you).result = .ok resp)
    (hs : resp.success = some success) : d.Replies me you success :=
  ⟨mem_replicateEntries.2 ⟨h.leader, h.peer, rfl⟩, resp, hr, hs⟩

/-- A rejection leaves the logs alone and moves `next_index` one down. -/
theorem rejected (h : d.Ready me you) (hp : ¬d.Passes me you) : d.Replies me you false ∧
    d.round me you = ⟨{ d.leader with
        nextIndex := Function.update d.leader.nextIndex you.nodeId
          (some (max 1 ((d.leader.nextIndex you.nodeId).getD 1 - 1))) },
      follow d.follower me.nodeId d.leader.currentTerm⟩ := by
  have hans := h.answer_eq
  unfold Duo.Passes at hp
  rw [if_neg hp] at hans
  refine ⟨h.replies (by rw [hans]) rfl, ?_⟩
  unfold Duo.round
  rw [hans]
  simp [processAeResp, appendReply, follow]

/-- A success leaves the leader's log alone and installs the entries of the request. -/
theorem accepted (h : d.Ready me you) (hp : d.Passes me you) : d.Replies me you true ∧
    (d.round me you).leader.log = d.leader.log ∧
    (d.round me you).follower.log = installEntries d.follower.log ((d.request me you).data.prevLogIndex.getD 0)
      ((d.request me you).data.entries.getD []) := by
  have hans := h.answer_eq
  unfold Duo.Passes at hp
  rw [if_pos hp] at hans
  refine ⟨h.replies (by rw [hans]) rfl, ?_⟩
  unfold Duo.round
  rw [hans]
  obtain ⟨ci, la, ap, pr, cs, hf, -⟩ :=
    acceptEntries_spec (follow d.follower me.nodeId d.leader.currentTerm) (d.request me you).data
  exact ⟨(processAeResp_cases _ _ _ _ _).log, by rw [hf]; rfl⟩

/-- After a success the leader's log is a prefix of the peer's, all of it if the request carried entries. -/
theorem log_of_accepted (h : d.Ready me you) (hp : d.Passes me you) :
    d.leader.log <+: (d.round me you).follower.log ∧
    ((d.request me you).data.entries.getD [] ≠ [] → (d.round me you).follower.log = d.leader.log) := by
  obtain ⟨-, -, hlog⟩ := h.accepted hp
  obtain ⟨pli, hpli, hents, hplt⟩ := appendRequest_snapshot me d.leader you.nodeId
  unfold Duo.Passes at hp
  unfold Duo.request at hp hlog ⊢
  rw [hpli, hplt] at hp
  rw [hpli, hents] at hlog
  have hagree := (h.logs.symm.agree h.follower_pos hp).2
  obtain ⟨hall, hpre⟩ := installEntries_snapshot hagree
  rw [hlog, hents]
  exact ⟨hpre, hall⟩

private theorem round_rejected (h : d.Ready me you) (hp : ¬d.Passes me you) : (d.round me you).Ready me you := by
  rw [(h.rejected hp).2]
  exact ⟨h.leader, h.peer, le_rfl, h.leader_pos, h.follower_pos, h.logs⟩

/-! ### Until the first success -/

/-- By induction on `next_index`: after at most `n` rejections a request is accepted. -/
theorem backs_off {n : Nat} (h : d.Ready me you) (hn : (d.leader.nextIndex you.nodeId).getD 1 ≤ n + 1) :
    ∃ k ≤ n, (∀ j < k, ((Duo.round me you)^[j] d).Replies me you false ∧
        ((Duo.round me you)^[j] d).leader.log = d.leader.log) ∧
      ((Duo.round me you)^[k] d).Ready me you ∧ ((Duo.round me you)^[k] d).Passes me you ∧
      ((Duo.round me you)^[k] d).leader.log = d.leader.log := by
  induction n generalizing d with
  | zero => exact ⟨0, le_rfl, by simp, h, passes_of_le_one hn, rfl⟩
  | succ n ih =>
    by_cases hp : d.Passes me you
    · exact ⟨0, Nat.zero_le _, by simp, h, hp, rfl⟩
    · obtain ⟨hrep, hround⟩ := h.rejected hp
      have hnext : ((d.round me you).leader.nextIndex you.nodeId).getD 1 ≤ n + 1 := by
        rw [hround]
        simp only [Function.update_self, Option.getD_some]
        omega
      have hlog : (d.round me you).leader.log = d.leader.log := by rw [hround]
      obtain ⟨k, hk, hrej, hready, hpass, hsame⟩ := ih (h.round_rejected hp) hnext
      refine ⟨k + 1, by omega, fun j hj => ?_, hready, hpass, hsame.trans hlog⟩
      cases j with
      | zero => exact ⟨hrep, rfl⟩
      | succ j => exact ⟨(hrej j (by omega)).1, (hrej j (by omega)).2.trans hlog⟩

end Duo.Ready

/-- In a run without two leaders in one term, the logs of any two nodes are as the back-off needs them. -/
theorem LogsMatch.of_reach {cfg : ClusterConfig ι} {s : Cluster ι κ} (h : Reach cfg s) (hone : OneLeader s) (a b : ι) :
    LogsMatch (s.nodes a).log (s.nodes b).log ∧ ∀ e ∈ (s.nodes a).log, 1 ≤ e.term := by
  obtain ⟨A, hA, hR⟩ := Refines.of_reach h hone
  refine ⟨fun i e e' he he' ht => ?_, hR.term_pos (Book.of_reach h) (ReplicatedLog.Inv.of_reach hA)⟩
  rw [← hR.log] at he he' ⊢
  rw [← hR.log b]
  exact (ReplicatedLog.Inv.of_reach hA).logs_agree he he' ht

/-- Back-off converges: from `next_index` `n ≥ 1` the peer rejects at most `n - 1` requests before it accepts one, and
then its log starts with the leader's, which is all of it if the accepted request carried entries. -/
theorem backoff_converges (me you : Self ι) (d : Duo ι κ) (h : d.Ready me you) (n : Nat) (hn : 1 ≤ n)
    (hnext : (d.leader.nextIndex you.nodeId).getD 1 = n) :
    ∃ k ≤ n - 1, (∀ j < k, ((Duo.round me you)^[j] d).Replies me you false) ∧
      ((Duo.round me you)^[k] d).Replies me you true ∧
      ((Duo.round me you)^[k + 1] d).leader.log = d.leader.log ∧
      d.leader.log <+: ((Duo.round me you)^[k + 1] d).follower.log ∧
      ((((Duo.round me you)^[k] d).request me you).data.entries.getD [] ≠ [] →
        ((Duo.round me you)^[k + 1] d).follower.log = d.leader.log) := by
  obtain ⟨k, hk, hrej, hready, hpass, hlog⟩ := h.backs_off (n := n - 1) (by omega)
  obtain ⟨hrep, hkeep, -⟩ := hready.accepted hpass
  obtain ⟨hpre, hall⟩ := hready.log_of_accepted hpass
  rw [hlog] at hkeep hpre hall
  rw [← Function.iterate_succ_apply' (Duo.round me you)] at hkeep hpre hall
  exact ⟨k, hk, fun j hj => (hrej j hj).1, hrep, hkeep, hpre, hall⟩

/-- The peer has an entry of an older leader at index `2`. -/
theorem backoff_converges_conflict : ∃ d : Duo (Fin 2) Nat,
    d.leader.log = [⟨1, 1, 7⟩, ⟨2, 2, 8⟩] ∧ d.follower.log = [⟨1, 1, 7⟩, ⟨1, 2, 9⟩] ∧
    (d.leader.nextIndex 1).getD 1 = 3 ∧
    ∃ k ≤ 2, (∀ j < k, ((Duo.round ⟨0, [1]⟩ ⟨1, [0]⟩)^[j] d).Replies ⟨0, [1]⟩ ⟨1, [0]⟩ false) ∧
      ((Duo.round ⟨0, [1]⟩ ⟨1, [0]⟩)^[k] d).Replies ⟨0, [1]⟩ ⟨1, [0]⟩ true ∧
      d.leader.log <+: ((Duo.round ⟨0, [1]⟩ ⟨1, [0]⟩)^[k + 1] d).follower.log := by
  let l : RaftNode (Fin 2) Nat := {
    currentTerm := 2
    state := .leader
    nextIndex := fun _ => some 3
    log := [⟨1, 1, 7⟩, ⟨2, 2, 8⟩] }
  let f : RaftNode (Fin 2) Nat := { currentTerm := 1, log := [⟨1, 1, 7⟩, ⟨1, 2, 9⟩] }
  have hready : Duo.Ready ⟨0, [1]⟩ ⟨1, [0]⟩ (⟨l, f⟩ : Duo (Fin 2) Nat) := by
    refine ⟨rfl, by decide, by decide, by decide, by decide, fun i e e' he he' ht => ?_⟩
    match i with
    | 0 => rfl
    | 1 =>
      cases he
      cases he'
      cases ht
    | i + 2 => cases he
  obtain ⟨k, hk, hrej, hrep, -, hpre, -⟩ := backoff_converges _ _ _ hready 3 (by decide) rfl
  exact ⟨⟨l, f⟩, rfl, rfl, rfl, k, hk, hrej, hrep, hpre⟩

end DistributedSync.Raft
