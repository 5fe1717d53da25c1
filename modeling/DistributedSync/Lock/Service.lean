import DistributedSync.Lock.Unified
import DistributedSync.Raft.Proposal

/-!
# The lock service of a leading unified node

The handlers `_handle_lock_acquire` and `_handle_lock_release` of `DistributedNode` (`main.py`), on a node that is
leader and commits every proposal.  A handler proposes its command and waits; the entries are committed in the order
of the log, each commit running the callback on the lock table; a handler whose proposal has been committed answers.
Any number of handlers may wait at a time, and they answer in any order.

`history` records the requests and the answers; no step reads it.
-/

namespace DistributedSync

open Raft (RaftNode LogEntry ProposeCall)

variable {ν : Type} [Number ν]

namespace DistributedNode

/-- The body of a request to the lock handlers; a missing key is `none`. -/
structure LockRequest (ν : Type) where
  resource : Json ν
  clientId : Option (Json ν) := none
  lockType : Option (Json ν) := none

/-- The command that `_handle_lock_acquire` proposes. -/
def LockRequest.acquire {ν : Type} (data : LockRequest ν) : LockCommand ν :=
  .acquire data.resource (data.clientId.getD (.str "anon")) (data.lockType.getD (.str "exclusive")) none

/-- The command that `_handle_lock_release` proposes. -/
def LockRequest.release {ν : Type} (data : LockRequest ν) : LockCommand ν :=
  .release data.resource (data.clientId.getD (.str "anon"))

/-- The status in the answer of the handler that proposed the command. -/
def status {ν : Type} (cmd : LockCommand ν) (ok : Bool) : String :=
  if ok then (if cmd.action.isStr "acquire" then "acquired" else "released") else "failed"

inductive ClientEvent (ν : Type) where
  /-- a handler got a request and proposed its command -/
  | sent (cmd : LockCommand ν)
  /-- the handler that proposed the command answered -/
  | answered (cmd : LockCommand ν) (status : String)

structure LockService (ν : Type) where
  raft : RaftNode String (LockCommand ν)
  history : List (ClientEvent ν)

/-- `self.locks`: the callback has run on every applied entry. -/
def LockService.locks (s : LockService ν) : LockTable ν := tableAfter (s.raft.applied.map LogEntry.command)

inductive ServiceAction (ν : Type) where
  | lockAcquire (data : LockRequest ν)
  | lockRelease (data : LockRequest ν)
  | commit
  | answer (call : Nat)

/-- A handler that proposes the command. -/
def LockService.handle {ν : Type} (s : LockService ν) (cmd : LockCommand ν) : LockService ν where
  raft := Raft.propose s.raft cmd
  history := s.history ++ [.sent cmd]

/-- The next index is committed and applied. -/
def commitNext {κ : Type} (n : RaftNode String κ) : RaftNode String κ :=
  ({ n with commitIndex := n.commitIndex + 1 }).applyCommitted.state

def LockService.step {ν : Type} (s : LockService ν) : ServiceAction ν → Option (LockService ν)
  | .lockAcquire data => if s.raft.state = .leader then some (s.handle data.acquire) else none
  | .lockRelease data => if s.raft.state = .leader then some (s.handle data.release) else none
  | .commit =>
    if s.raft.commitIndex < s.raft.log.length then some { s with raft := commitNext s.raft } else none
  | .answer call => s.raft.calls[call]?.bind fun c =>
    if c.future = .resolved ∧ c.returned = none then
      let cmd := c.entry.command
      some { raft := Raft.proposeReturn s.raft call, history := s.history ++ [.answered cmd (status cmd true)] }
    else none

/-- A leader of term `term` with an empty log. -/
def LockService.start (term : Nat) : LockService ν where
  raft := { currentTerm := term, state := .leader }
  history := []

/-! ### Who was told what -/

/-- The two values are the same key. -/
def SameId (a b : Json ν) : Prop := a.key?.isSome ∧ a.key? = b.key?

instance (a b : Json ν) : Decidable (SameId a b) := inferInstanceAs (Decidable (_ ∧ _))

/-- The command releases the resource of `cmd` for the client of `cmd`. -/
def Undoes (rel cmd : LockCommand ν) : Prop :=
  rel.action.isStr "release" ∧ SameId rel.resource cmd.resource ∧ SameId rel.clientId cmd.clientId

instance (rel cmd : LockCommand ν) : Decidable (Undoes rel cmd) := inferInstanceAs (Decidable (_ ∧ _))

/-- The command releases `r` for the client `c`. -/
def Releases (rel : LockCommand ν) (c r : Key ν) : Prop :=
  rel.action.isStr "release" ∧ rel.resource.key? = some r ∧ rel.clientId.key? = some c

/-- The acquire request `cmd` was answered with `acquired`, and its client has sent no release since. -/
def LockService.ToldAcquired (s : LockService ν) (cmd : LockCommand ν) : Prop :=
  ∃ before since, s.history = before ++ .answered cmd "acquired" :: since ∧
    ∀ rel, .sent rel ∈ since → ¬Undoes rel cmd

/-- An acquire in the mode gives the lock to the client, or finds that it has it exclusively. -/
def Grants (v : LockView ν) (c : Key ν) (lockType : LockType) : Prop :=
  v.holders = ∅ ∨ (lockType = .shared ∧ v.lockType = some .shared) ∨
    (c ∈ v.holders ∧ v.lockType = some .exclusive)

instance (v : LockView ν) (c : Key ν) (lockType : LockType) : Decidable (Grants v c lockType) :=
  inferInstanceAs (Decidable (_ ∨ _))

/-- The acquire command is well formed, and the table grants it. -/
def Granted (locks : LockTable ν) (cmd : LockCommand ν) : Prop :=
  ∃ r ∈ cmd.resource.key?, ∃ c ∈ cmd.clientId.key?, ∃ lockType ∈ cmd.lockType?, Grants (locks.view r) c lockType

instance (locks : LockTable ν) (cmd : LockCommand ν) : Decidable (Granted locks cmd) :=
  inferInstanceAs (Decidable (∃ r ∈ cmd.resource.key?, _))

/-- The acquire command is in force: its client holds the lock, in the mode it asked for or a stronger one. -/
def InForce (locks : LockTable ν) (cmd : LockCommand ν) : Prop :=
  ∃ r c lockType, cmd.resource.key? = some r ∧ cmd.clientId.key? = some c ∧ cmd.lockType? = some lockType ∧
    c ∈ (locks.view r).holders ∧ (lockType = .exclusive → (locks.view r).lockType = some .exclusive)

/-! ### The table -/

theorem acquire_keeps {v : LockView ν} {c : Key ν} (hc : c ∈ v.holders) (clientId : Json ν) (lockType : LockType) :
    c ∈ (v.acquire clientId lockType).holders ∧ (v.acquire clientId lockType).lockType = v.lockType := by
  rw [LockView.acquire, if_neg (Finset.ne_empty_of_mem hc)]
  by_cases hs : lockType = .shared ∧ v.lockType = some .shared
  · rw [if_pos hs]
    cases clientId.key? with
    | none => exact ⟨hc, rfl⟩
    | some c' => exact ⟨Finset.mem_insert_of_mem hc, rfl⟩
  · rw [if_neg hs]
    exact ⟨hc, rfl⟩

private theorem discard_keeps {v : LockView ν} {c : Key ν} (hc : c ∈ v.holders) {clientId : Json ν}
    (hne : clientId.key? ≠ some c) : c ∈ (v.discard clientId).holders ∧ (v.discard clientId).lockType = v.lockType := by
  rw [LockView.discard]
  cases hk : clientId.key? with
  | none => exact ⟨hc, rfl⟩
  | some c' =>
    have hcc : c ≠ c' := by
      rintro rfl
      exact hne hk
    exact ⟨Finset.mem_erase.2 ⟨hcc, hc⟩, rfl⟩

/-- A holder stays, and the mode with it, until the client releases. -/
theorem applyUnified_keeps {v : LockView ν} {cmd : LockCommand ν} {c : Key ν} (hc : c ∈ v.holders)
    (hrel : cmd.action.isStr "release" → cmd.clientId.key? ≠ some c) :
    c ∈ (v.applyUnified cmd).holders ∧ (v.applyUnified cmd).lockType = v.lockType := by
  apply LockView.applyUnified_cases (P := fun w => c ∈ w.holders ∧ w.lockType = v.lockType)
  · exact ⟨hc, rfl⟩
  · intro lockType _
    exact acquire_keeps hc _ lockType
  · intro hr
    exact discard_keeps hc (hrel hr)

theorem Grants.acquire {v : LockView ν} {c : Key ν} {lockType : LockType} (h : Grants v c lockType)
    {clientId : Json ν} (hc : clientId.key? = some c) :
    c ∈ (v.acquire clientId lockType).holders ∧
      (lockType = .exclusive → (v.acquire clientId lockType).lockType = some .exclusive) := by
  rw [LockView.acquire, hc]
  by_cases hfree : v.holders = ∅
  · rw [if_pos hfree]
    exact ⟨Finset.mem_insert_self _ _, fun hex => congrArg some hex⟩
  · rw [if_neg hfree]
    by_cases hs : lockType = .shared ∧ v.lockType = some .shared
    · rw [if_pos hs]
      refine ⟨Finset.mem_insert_self _ _, fun hex => ?_⟩
      rw [hs.1] at hex
      cases hex
    · rw [if_neg hs]
      rcases h with h | h | ⟨hheld, hex⟩
      · exact absurd h hfree
      · exact absurd h hs
      · exact ⟨hheld, fun _ => hex⟩

/-- An exclusive lock keeps having one holder at most. -/
theorem applyUnified_exclusive {v : LockView ν} (h : v.lockType = some .exclusive → v.holders.card ≤ 1)
    (cmd : LockCommand ν) :
    (v.applyUnified cmd).lockType = some .exclusive → (v.applyUnified cmd).holders.card ≤ 1 := by
  apply LockView.applyUnified_cases (P := fun w => w.lockType = some .exclusive → w.holders.card ≤ 1)
  · exact h
  · intro lockType _
    exact LockView.acquire_exclusive h _ lockType
  · intro _
    rw [LockView.discard]
    cases cmd.clientId.key? with
    | none => exact h
    | some c =>
      intro hex
      have hcard := Finset.card_le_card (Finset.erase_subset c v.holders)
      exact hcard.trans (h hex)

theorem tableAfter_exclusive (cmds : List (LockCommand ν)) (r : Key ν) :
    ((tableAfter cmds).view r).lockType = some .exclusive → ((tableAfter cmds).view r).holders.card ≤ 1 := by
  induction cmds using List.reverseRecOn with
  | nil =>
    intro hex
    cases hex
  | append_singleton cmds cmd ih =>
    rw [tableAfter_concat_view]
    by_cases hr : cmd.resource.key? = some r
    · rw [if_pos hr]
      exact applyUnified_exclusive ih cmd
    · rw [if_neg hr]
      exact ih

/-- A holder stays, and the mode with it, when a command is applied that does not release the lock for the client. -/
theorem tableAfter_concat_keeps {cmds : List (LockCommand ν)} {new : LockCommand ν} {c r : Key ν}
    (hc : c ∈ ((tableAfter cmds).view r).holders) (hnew : ¬Releases new c r) :
    c ∈ ((tableAfter (cmds ++ [new])).view r).holders ∧
      ((tableAfter (cmds ++ [new])).view r).lockType = ((tableAfter cmds).view r).lockType := by
  rw [tableAfter_concat_view]
  by_cases hres : new.resource.key? = some r
  · rw [if_pos hres]
    exact applyUnified_keeps hc fun hrel hclient => hnew ⟨hrel, hres, hclient⟩
  · rw [if_neg hres]
    exact ⟨hc, rfl⟩

theorem InForce.concat {cmds : List (LockCommand ν)} {cmd new : LockCommand ν} (h : InForce (tableAfter cmds) cmd)
    (hnew : ¬Undoes new cmd) : InForce (tableAfter (cmds ++ [new])) cmd := by
  obtain ⟨r, c, lockType, hr, hc, htype, hheld, hmode⟩ := h
  have hother : ¬Releases new c r := by
    rintro ⟨hrel, hres, hclient⟩
    have hsame : SameId new.clientId cmd.clientId := ⟨by rw [hclient]; rfl, by rw [hclient, hc]⟩
    exact hnew ⟨hrel, ⟨by rw [hres]; rfl, by rw [hres, hr]⟩, hsame⟩
  obtain ⟨hkeep, hsame⟩ := tableAfter_concat_keeps hheld hother
  exact ⟨r, c, lockType, hr, hc, htype, hkeep, fun hex => hsame.trans (hmode hex)⟩

theorem Granted.inForce {cmds : List (LockCommand ν)} {cmd : LockCommand ν} (ha : cmd.action.isStr "acquire")
    (h : Granted (tableAfter cmds) cmd) : InForce (tableAfter (cmds ++ [cmd])) cmd := by
  obtain ⟨r, hr, c, hc, lockType, htype, h⟩ := h
  refine ⟨r, c, lockType, hr, hc, htype, ?_⟩
  rw [tableAfter_concat_view, if_pos (Option.mem_def.1 hr), LockView.applyUnified, if_pos ha, LockView.request,
    Option.mem_def.1 htype]
  exact h.acquire hc

/-- Every acquire of the sequence was granted when its turn came. -/
def AllGranted (cmds : List (LockCommand ν)) : Prop :=
  ∀ i cmd, cmds[i]? = some cmd → cmd.action.isStr "acquire" → Granted (tableAfter (cmds.take i)) cmd

theorem AllGranted.init {cmds : List (LockCommand ν)} {new : LockCommand ν} (h : AllGranted (cmds ++ [new])) :
    AllGranted cmds := by
  intro i cmd hi ha
  have hlt : i < cmds.length := (List.getElem?_eq_some_iff.1 hi).1
  have hg := h i cmd ((List.getElem?_append_left hlt).trans hi) ha
  rwa [List.take_append_of_le_length hlt.le] at hg

theorem AllGranted.concat {cmds : List (LockCommand ν)} {new : LockCommand ν} (h : AllGranted cmds)
    (hnew : new.action.isStr "acquire" → Granted (tableAfter cmds) new) : AllGranted (cmds ++ [new]) := by
  intro i cmd hi ha
  rcases Positions.getElem?_concat hi with ⟨-, hold⟩ | ⟨rfl, rfl⟩
  · rw [List.take_append_of_le_length (List.getElem?_eq_some_iff.1 hold).1.le]
    exact h i cmd hold ha
  · rw [List.take_left]
    exact hnew ha

/-- An acquire that no later command undoes is in force. -/
theorem AllGranted.inForce {cmds : List (LockCommand ν)} (h : AllGranted cmds) {i : Nat} {cmd : LockCommand ν}
    (hi : cmds[i]? = some cmd) (ha : cmd.action.isStr "acquire")
    (hkept : ∀ j rel, i < j → cmds[j]? = some rel → ¬Undoes rel cmd) : InForce (tableAfter cmds) cmd := by
  induction cmds using List.reverseRecOn with
  | nil => cases hi
  | append_singleton cmds new ih =>
    rcases Positions.getElem?_concat hi with ⟨-, hold⟩ | ⟨rfl, rfl⟩
    · have hlt : i < cmds.length := (List.getElem?_eq_some_iff.1 hold).1
      have hforce := ih h.init hold fun j rel hij hj =>
        hkept j rel hij (Positions.getElem?_append_of_some hj _)
      exact hforce.concat (hkept cmds.length new hlt List.getElem?_concat_length)
    · have hg := h cmds.length cmd List.getElem?_concat_length ha
      rw [List.take_left] at hg
      exact hg.inForce ha

/-! ### The run -/

/-- The condition on a step: a committed acquire is granted, and no client sends a release while an acquire of its
own, for the same resource, has no answer yet. -/
def LockService.Grants (s : LockService ν) : ServiceAction ν → Prop
  | .commit => ∀ e ∈ s.raft.log[s.raft.commitIndex]?,
      e.command.action.isStr "acquire" → Granted s.locks e.command
  | .lockRelease data => ∀ c ∈ s.raft.calls, c.returned = none → c.entry.command.action.isStr "acquire" →
      ¬Undoes data.release c.entry.command
  | _ => True

instance (s : LockService ν) : (a : ServiceAction ν) → Decidable (s.Grants a)
  | .commit => inferInstanceAs (Decidable (∀ e ∈ s.raft.log[s.raft.commitIndex]?, _))
  | .lockRelease _ => inferInstanceAs (Decidable (∀ c ∈ s.raft.calls, _))
  | .lockAcquire _ => isTrue trivial
  | .answer _ => isTrue trivial

/-- The Raft side of a leader that commits its proposals in their order. -/
structure LeaderBook {κ : Type} (n : RaftNode String κ) : Prop where
  pending : Raft.PendingBook n
  indexed : Raft.Indexed n.log
  calls : n.calls.map ProposeCall.entry = n.log
  upToCommit : Raft.UpToCommit n

private theorem resolvePending_entries {κ : Type} (n : RaftNode String κ) (i : Nat) :
    (n.resolvePending i).calls.map ProposeCall.entry = n.calls.map ProposeCall.entry := by
  rw [RaftNode.resolvePending]
  split
  · rfl
  · exact Positions.map_modify_of_eq ProposeCall.resolve_entry

namespace LeaderBook

variable {κ : Type} {n : RaftNode String κ}

theorem propose (h : LeaderBook n) (hle : n.commitIndex ≤ n.log.length) (cmd : κ) :
    LeaderBook (Raft.propose n cmd) where
  pending := h.pending.propose cmd
  indexed := h.indexed.append rfl
  calls := by
    simp only [Raft.propose, List.map_append, List.map_cons, List.map_nil]
    rw [h.calls]
  upToCommit := by
    refine ⟨h.upToCommit.1, ?_⟩
    simp only [Raft.propose]
    rw [List.take_append_of_le_length (h.upToCommit.1.trans_le hle)]
    exact h.upToCommit.2

theorem call_entry (h : LeaderBook n) {i : Nat} {c : ProposeCall κ} (hc : n.calls[i]? = some c) :
    n.log[i]? = some c.entry := by
  rw [← h.calls, List.getElem?_map, hc]
  rfl

/-- The entry of a resolved call has been applied. -/
theorem resolved (h : LeaderBook n) {i : Nat} {c : ProposeCall κ} (hc : n.calls[i]? = some c)
    (hf : c.future = .resolved) : n.applied[i]? = some c.entry := by
  have happ := h.pending.resolved i c hc hf
  rw [h.indexed i _ (h.call_entry hc), Nat.add_sub_cancel] at happ
  exact happ

private theorem commitNext_eq (h : LeaderBook n) {e : LogEntry κ} (he : n.log[n.commitIndex]? = some e) :
    commitNext n = { n with
      commitIndex := n.commitIndex + 1
      lastApplied := n.lastApplied + 1
      applied := n.applied ++ [e] }.resolvePending e.index := by
  have hround : n.commitIndex + 1 - n.commitIndex = 1 := Nat.add_sub_cancel_left _ _
  simp only [commitNext, RaftNode.applyCommitted, h.upToCommit.1, hround, RaftNode.applyLoop, Nat.add_sub_cancel, he]

/-- Committing the next entry changes a call at most in its future. -/
theorem commitNext_call (h : LeaderBook n) {e : LogEntry κ} (he : n.log[n.commitIndex]? = some e) {i : Nat}
    {c : ProposeCall κ} (hc : (commitNext n).calls[i]? = some c) :
    ∃ c', n.calls[i]? = some c' ∧ c.entry = c'.entry ∧ c.returned = c'.returned := by
  rw [h.commitNext_eq he, RaftNode.resolvePending] at hc
  split at hc
  · exact ⟨c, hc, rfl, rfl⟩
  · obtain ⟨c', hc', rfl⟩ := Positions.getElem?_modify_some hc
    refine ⟨c', hc', ?_, ?_⟩
    · split
      · exact ProposeCall.resolve_entry c'
      · rfl
    · split
      · exact ProposeCall.resolve_returned c'
      · rfl

private theorem commitNext_frame (h : LeaderBook n) {e : LogEntry κ} (he : n.log[n.commitIndex]? = some e) :
    (commitNext n).log = n.log ∧ (commitNext n).commitIndex = n.commitIndex + 1 ∧
      (commitNext n).lastApplied = n.commitIndex + 1 ∧ (commitNext n).applied = n.applied ++ [e] := by
  rw [h.commitNext_eq he]
  obtain ⟨pr, cs, hf⟩ := Raft.resolvePending_frame
    { n with commitIndex := n.commitIndex + 1, lastApplied := n.lastApplied + 1, applied := n.applied ++ [e] } e.index
  rw [hf, h.upToCommit.1]
  exact ⟨rfl, rfl, rfl, rfl⟩

private theorem commitNext (h : LeaderBook n) {e : LogEntry κ} (he : n.log[n.commitIndex]? = some e) :
    LeaderBook (commitNext n) := by
  have hlt : n.commitIndex < n.log.length := (List.getElem?_eq_some_iff.1 he).1
  have hlog := (h.commitNext_frame he).1
  refine ⟨?_, by rw [hlog]; exact h.indexed, ?_, ?_⟩
  · exact (Raft.pendingBook_applies n (n.commitIndex + 1) ⟨h.pending, h.indexed⟩ (Nat.le_succ _) hlt).1
  · rw [hlog, h.commitNext_eq he, resolvePending_entries]
    exact h.calls
  · exact Raft.UpToCommit.applies n (n.commitIndex + 1) h.upToCommit (Nat.le_succ _) hlt

theorem proposeReturn (h : LeaderBook n) {i : Nat} {c : ProposeCall κ} (hc : n.calls[i]? = some c)
    (hf : c.future = .resolved) : LeaderBook (Raft.proposeReturn n i) where
  pending := h.pending.proposeReturn hc hf
  indexed := h.indexed
  calls := by
    have hentries : (Raft.proposeReturn n i).calls.map ProposeCall.entry = n.calls.map ProposeCall.entry :=
      Positions.map_modify_of_eq fun _ => rfl
    exact hentries.trans h.calls
  upToCommit := h.upToCommit

end LeaderBook

/-- No entry of the log after position `i` undoes the command. -/
def NotUndone (log : List (LogEntry (LockCommand ν))) (i : Nat) (cmd : LockCommand ν) : Prop :=
  ∀ j e, i < j → log[j]? = some e → ¬Undoes e.command cmd

theorem NotUndone.concat {log : List (LogEntry (LockCommand ν))} {i : Nat} {cmd : LockCommand ν}
    (h : NotUndone log i cmd) {e : LogEntry (LockCommand ν)} (he : ¬Undoes e.command cmd) :
    NotUndone (log ++ [e]) i cmd := by
  intro j e' hij hj
  rcases Positions.getElem?_concat hj with ⟨-, hold⟩ | ⟨-, rfl⟩
  · exact h j e' hij hold
  · exact he

/-- A command at the end of the log has no entry after it. -/
theorem notUndone_length {log : List (LogEntry (LockCommand ν))} {e : LogEntry (LockCommand ν)}
    (cmd : LockCommand ν) : NotUndone (log ++ [e]) log.length cmd := by
  intro j e' hij hj
  have hlt := (List.getElem?_eq_some_iff.1 hj).1
  rw [List.length_append, List.length_singleton] at hlt
  omega

/-- What ties the answers to the table: the log keeps no release of an acquire that is unanswered, or that was
answered before its client sent any. -/
structure LockService.Book (s : LockService ν) : Prop where
  raft : LeaderBook s.raft
  bound : s.raft.commitIndex ≤ s.raft.log.length
  granted : AllGranted (s.raft.applied.map LogEntry.command)
  unanswered : ∀ i c, s.raft.calls[i]? = some c → c.returned = none → c.entry.command.action.isStr "acquire" →
    NotUndone s.raft.log i c.entry.command
  told : ∀ cmd, s.ToldAcquired cmd → cmd.action.isStr "acquire" ∧
    ∃ i e, s.raft.applied[i]? = some e ∧ e.command = cmd ∧ NotUndone s.raft.log i cmd

namespace LockService

variable {s s' : LockService ν}

/-- A request that undoes no waiting acquire. -/
theorem Book.handle (h : s.Book) {cmd : LockCommand ν}
    (hcmd : ∀ c ∈ s.raft.calls, c.returned = none → c.entry.command.action.isStr "acquire" →
      ¬Undoes cmd c.entry.command) : (s.handle cmd).Book where
  raft := h.raft.propose h.bound cmd
  bound := by
    simp only [LockService.handle, Raft.propose, List.length_append]
    exact h.bound.trans (Nat.le_add_right _ _)
  granted := h.granted
  unanswered := by
    intro i c hc hret ha
    have hlen : s.raft.calls.length = s.raft.log.length := by rw [← h.raft.calls, List.length_map]
    rcases Positions.getElem?_concat hc with ⟨-, hold⟩ | ⟨rfl, rfl⟩
    · exact (h.unanswered i c hold hret ha).concat (hcmd c (List.mem_of_getElem? hold) hret ha)
    · rw [hlen]
      exact notUndone_length _
  told := by
    rintro cmd' ⟨before, since, hhist, hsince⟩
    rcases Positions.concat_eq_append_cons hhist with ⟨-, heq, -⟩ | ⟨since', rfl, hold⟩
    · cases heq
    · have hrest := fun rel (hrel : .sent rel ∈ since') => hsince rel (List.mem_append_left _ hrel)
      obtain ⟨ha, i, e, hi, hcmd', hkept⟩ := h.told cmd' ⟨before, since', hold, hrest⟩
      exact ⟨ha, i, e, hi, hcmd', hkept.concat (hsince cmd (List.mem_append_right _ List.mem_cons_self))⟩

theorem Book.commit (h : s.Book) (hlt : s.raft.commitIndex < s.raft.log.length) (hg : s.Grants .commit) :
    Book { s with raft := commitNext s.raft } := by
  have he : s.raft.log[s.raft.commitIndex]? = some s.raft.log[s.raft.commitIndex] := List.getElem?_eq_getElem hlt
  obtain ⟨hlog, hci, -, hap⟩ := h.raft.commitNext_frame he
  refine ⟨h.raft.commitNext he, ?_, ?_, ?_, ?_⟩
  · simp only [hlog, hci]
    exact hlt
  · simp only [hap, List.map_append, List.map_cons, List.map_nil]
    exact h.granted.concat fun ha => hg _ he ha
  · intro i c hc hret ha
    obtain ⟨c', hc', hentry, hret'⟩ := h.raft.commitNext_call he hc
    rw [hentry] at ha
    simp only [hlog, hentry]
    exact h.unanswered i c' hc' (hret'.symm.trans hret) ha
  · intro cmd htold
    obtain ⟨ha, i, e, hi, hcmd, hkept⟩ := h.told cmd htold
    refine ⟨ha, i, e, ?_, hcmd, ?_⟩
    · simp only [hap]
      exact Positions.getElem?_append_of_some hi _
    · simp only [hlog]
      exact hkept

theorem Book.answer (h : s.Book) {call : Nat} {c : ProposeCall (LockCommand ν)} (hc : s.raft.calls[call]? = some c)
    (hf : c.future = .resolved) (hret : c.returned = none) :
    Book ⟨Raft.proposeReturn s.raft call,
      s.history ++ [.answered c.entry.command (status c.entry.command true)]⟩ := by
  refine ⟨h.raft.proposeReturn hc hf, h.bound, h.granted, ?_, ?_⟩
  · intro i c' hc' hret' ha
    obtain ⟨x, hx, rfl⟩ := Positions.getElem?_modify_some hc'
    by_cases hi : call = i
    · rw [if_pos hi] at hret'
      cases hret'
    · rw [if_neg hi] at hret' ha ⊢
      exact h.unanswered i x hx hret' ha
  · rintro cmd ⟨before, since, hhist, hsince⟩
    rcases Positions.concat_eq_append_cons hhist with ⟨-, heq, -⟩ | ⟨since', rfl, hold⟩
    · -- the answer that is given now
      obtain ⟨rfl, hstatus⟩ := ClientEvent.answered.inj heq
      have ha : c.entry.command.action.isStr "acquire" := by
        by_contra hna
        simp [status, hna] at hstatus
      exact ⟨ha, call, c.entry, h.raft.resolved hc hf, rfl, h.unanswered call c hc hret ha⟩
    · have hrest := fun rel (hrel : .sent rel ∈ since') => hsince rel (List.mem_append_left _ hrel)
      exact h.told cmd ⟨before, since', hold, hrest⟩

private theorem start_book (term : Nat) : (start term : LockService ν).Book where
  raft := by
    refine ⟨⟨rfl, fun k c hk => ?_, fun k c hk => ?_, fun i k hk => ?_⟩, fun i e hi => ?_, rfl, rfl, rfl⟩
    · cases hk
    · cases hk
    · cases hk
    · cases hi
  bound := le_refl _
  granted i cmd hi := by cases hi
  unanswered i c hc := by cases hc
  told := by
    rintro cmd ⟨before, since, hhist, -⟩
    exact absurd hhist.symm (List.append_ne_nil_of_right_ne_nil _ (List.cons_ne_nil _ _))

private theorem step_book (h : s.Book) {a : ServiceAction ν} (hg : s.Grants a) (hstep : s.step a = some s') :
    s'.Book := by
  cases a with
  | lockAcquire data =>
    obtain ⟨-, rfl⟩ : s.raft.state = .leader ∧ s.handle data.acquire = s' := by simpa [step] using hstep
    refine h.handle fun c _ _ _ hundo => ?_
    exact absurd hundo.1 (by simp [LockRequest.acquire, LockCommand.acquire, Json.isStr])
  | lockRelease data =>
    obtain ⟨-, rfl⟩ : s.raft.state = .leader ∧ s.handle data.release = s' := by simpa [step] using hstep
    exact h.handle hg
  | commit =>
    obtain ⟨hlt, rfl⟩ : s.raft.commitIndex < s.raft.log.length ∧ { s with raft := commitNext s.raft } = s' := by
      simpa [step] using hstep
    exact h.commit hlt hg
  | answer call =>
    obtain ⟨c, hc, ⟨hf, hret⟩, rfl⟩ : ∃ c, s.raft.calls[call]? = some c ∧ (c.future = .resolved ∧ c.returned = none) ∧
        (⟨Raft.proposeReturn s.raft call,
          s.history ++ [.answered c.entry.command (status c.entry.command true)]⟩ : LockService ν) = s' := by
      simpa [step, Option.bind_eq_some_iff] using hstep
    exact h.answer hc hf hret

/-- The services reached by steps that all meet `ok`, from a leader with an empty log. -/
abbrev ReachWhile (ok : LockService ν → ServiceAction ν → Prop) (term : Nat) : LockService ν → Prop :=
  Transition.ReachWhile (fun s a s' => step s a = some s') ok (start term)

theorem Book.of_reach {term : Nat} (h : ReachWhile Grants term s) : s.Book := by
  refine Transition.ReachWhile.invariant (I := Book) h (start_book term) ?_
  intro s a s' _ hs hg hstep
  exact step_book hs hg hstep

/-- A client that was told `acquired`, and has sent no release since, holds the lock in the mode it asked for. -/
theorem Book.inForce (h : s.Book) {cmd : LockCommand ν} (htold : s.ToldAcquired cmd) : InForce s.locks cmd := by
  obtain ⟨ha, i, e, hi, rfl, hkept⟩ := h.told cmd htold
  refine h.granted.inForce (i := i) ?_ ha ?_
  · rw [List.getElem?_map, hi]
    rfl
  · intro j rel hij hj
    rw [List.getElem?_map, Option.map_eq_some_iff] at hj
    obtain ⟨e', he', rfl⟩ := hj
    rw [h.raft.upToCommit.2] at he'
    have hlt := (List.getElem?_eq_some_iff.1 he').1
    rw [List.length_take] at hlt
    rw [List.getElem?_take_of_lt (by omega)] at he'
    exact hkept j e' hij he'

/-- Two different clients that were both told `acquired` for one resource, and have sent no release since, both asked
for a shared lock, when every committed acquire was granted. -/
theorem told_acquired_shared {term : Nat} (h : ReachWhile Grants term s) {a b : LockCommand ν}
    (ha : s.ToldAcquired a) (hb : s.ToldAcquired b) (hr : SameId a.resource b.resource)
    (hc : ¬SameId a.clientId b.clientId) : a.lockType? = some .shared ∧ b.lockType? = some .shared := by
  have hbook := Book.of_reach h
  obtain ⟨r, c, m, har, hac, ham, hheld, hmode⟩ := hbook.inForce ha
  obtain ⟨r', c', m', hbr, hbc, hbm, hheld', hmode'⟩ := hbook.inForce hb
  obtain rfl : r = r' := Option.some.inj (har.symm.trans (hr.2.trans hbr))
  have hne : c ≠ c' := by
    rintro rfl
    exact hc ⟨by rw [hac]; rfl, hac.trans hbc.symm⟩
  -- two holders exclude the exclusive mode
  have hshared : (s.locks.view r).lockType ≠ some .exclusive := by
    intro hex
    have hcard := tableAfter_exclusive _ r hex
    exact hne (Finset.card_le_one.1 hcard c hheld c' hheld')
  have hm : ∀ m : LockType, (m = .exclusive → (s.locks.view r).lockType = some .exclusive) → m = .shared := by
    intro m hm
    cases m with
    | shared => rfl
    | exclusive => exact absurd (hm rfl) hshared
  rw [ham, hbm, hm m hmode, hm m' hmode']
  exact ⟨rfl, rfl⟩

/-- Two clients ask for the lock `r` in the given mode, and both are answered. -/
def twoRequests (lockType : String) : List (ServiceAction Int) :=
  [.lockAcquire ⟨.str "r", some (.str "a"), some (.str lockType)⟩,
    .lockAcquire ⟨.str "r", some (.str "b"), some (.str lockType)⟩, .commit, .answer 0, .commit, .answer 1]

/-- The command of the request of `client`. -/
def request (client lockType : String) : LockCommand Int :=
  .acquire (.str "r") (.str client) (.str lockType) none

private theorem twoRequests_told {lockType : String} {s : LockService Int}
    (h : s.history = [.sent (request "a" lockType), .sent (request "b" lockType),
      .answered (request "a" lockType) "acquired", .answered (request "b" lockType) "acquired"]) :
    s.ToldAcquired (request "a" lockType) ∧ s.ToldAcquired (request "b" lockType) := by
  constructor
  · refine ⟨[.sent (request "a" lockType), .sent (request "b" lockType)], _, h, ?_⟩
    intro rel hrel
    simp at hrel
  · refine ⟨[.sent (request "a" lockType), .sent (request "b" lockType),
      .answered (request "a" lockType) "acquired"], _, h, ?_⟩
    intro rel hrel
    simp at hrel

theorem told_acquired_shared_run : ∃ s : LockService Int,
    Transition.run step (start 1) (twoRequests "shared") = some s ∧ s.ToldAcquired (request "a" "shared") ∧
    s.ToldAcquired (request "b" "shared") ∧ (request "a" "shared").lockType? = some .shared ∧
    (request "b" "shared").lockType? = some .shared := by
  have hrun : (Transition.runWhile step Grants (start 1) (twoRequests "shared")).map LockService.history =
      some [.sent (request "a" "shared"), .sent (request "b" "shared"),
        .answered (request "a" "shared") "acquired", .answered (request "b" "shared") "acquired"] := rfl
  obtain ⟨s, hs, hhist⟩ := Option.map_eq_some_iff.1 hrun
  obtain ⟨hr, hrun⟩ := Transition.ReachWhile.of_runWhile .refl hs
  obtain ⟨ha, hb⟩ := twoRequests_told hhist
  exact ⟨s, hrun, ha, hb, told_acquired_shared hr ha hb (by decide) (by decide)⟩

/-- The second exclusive request is queued, and answered `acquired` all the same. -/
theorem queued_told_acquired : ¬∀ s : LockService Int, ReachWhile (fun _ _ => True) 1 s → ∀ a b,
    s.ToldAcquired a → s.ToldAcquired b → SameId a.resource b.resource → ¬SameId a.clientId b.clientId →
      a.lockType? = some .shared ∧ b.lockType? = some .shared := by
  intro h
  have hrun : (Transition.run step (start 1) (twoRequests "exclusive")).map LockService.history =
      some [.sent (request "a" "exclusive"), .sent (request "b" "exclusive"),
        .answered (request "a" "exclusive") "acquired", .answered (request "b" "exclusive") "acquired"] := rfl
  obtain ⟨s, hs, hhist⟩ := Option.map_eq_some_iff.1 hrun
  obtain ⟨ha, hb⟩ := twoRequests_told hhist
  have hshared := (h s (Transition.reach_of_run hs) _ _ ha hb (by decide) (by decide)).1
  exact absurd hshared (by decide)

end LockService

end DistributedNode

end DistributedSync
