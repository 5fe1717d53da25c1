import Mathlib.Algebra.Order.Ring.Int
import DistributedSync.Library.Clockwise
import DistributedSync.Library.Dict

/-!
# Sending messages

`send` and `broadcast` of `message_passing.py`.  What the network does to the attempts of a send is a tape: how an
attempt ends for the sender, and whether the receiver has handled it, which it may have done although the answer was
lost.  A send returns the first answer with status 200, gives up at once after an unexpected error, and waits twice as
long after every other failure (`send_eq`); so the receiver handles a message once if the send
returns an answer, and up to as many times as there are attempts in any case (`send_handled`).  A broadcast has one
result for each id, that of the last peer with the id (`broadcast_answers`).
-/

namespace DistributedSync

/-- How an attempt ends: an answer with status 200, one with another status, a timeout, an error of the client, or any
other exception. -/
inductive Post (ρ : Type) where
  | ok (body : ρ)
  | status (code : Nat)
  | timeout
  | clientError
  | unexpected
  deriving DecidableEq

/-- An attempt, and whether the receiver has handled its message: it has if it has answered with status 200. -/
structure Attempt (ρ : Type) where
  post : Post ρ
  handled : Bool
  answered : ∀ body, post = .ok body → handled = true

/-- The attempts that were made, the delays between them in tenths of a second, and the result. -/
structure Sent (ρ : Type) where
  attempts : List (Attempt ρ) := []
  delays : List Nat := []
  result : Option ρ := none

/-- The failures after which the loop goes on. -/
def Post.retried {ρ : Type} : Post ρ → Bool
  | .status _ | .timeout | .clientError => true
  | .ok _ | .unexpected => false

/-- A peer of a broadcast. -/
structure Peer where
  nodeId : String

namespace MessagePassing

variable {ρ : Type}

/-- The loop of `send`, from the attempt with the given number on. -/
def sendLoop (maxAttempts : Nat) : Nat → List (Attempt ρ) → Sent ρ
  | _, [] => {}
  | attempt, a :: rest =>
    match a.post with
    | .ok body => { attempts := [a], result := some body }
    | .unexpected => { attempts := [a] }
    | .status _ | .timeout | .clientError =>
      let later := sendLoop maxAttempts (attempt + 1) rest
      { later with
        attempts := a :: later.attempts
        delays := if attempt < maxAttempts - 1 then 2 ^ attempt :: later.delays else later.delays }

/-- `max_attempts`. -/
def maxAttempts (maxRetries : Nat) (retry : Bool) : Nat := if retry then maxRetries else 1

/-- `send`, when the attempts would end as the tape says. -/
def send (maxRetries : Nat) (retry : Bool) (tape : Nat → Attempt ρ) : Sent ρ :=
  sendLoop (maxAttempts maxRetries retry) 0 ((List.range (maxAttempts maxRetries retry)).map tape)

/-- The tasks of `broadcast`: each is kept under the id of its peer. -/
def tasks (peers : List Peer) : Dict String Nat := Dict.empty.fill (peers.zipIdx.map fun p => (p.1.nodeId, p.2))

/-- `broadcast`: the tasks are awaited in the order of their dictionary; `tape i` is that of the `i`-th one. -/
def broadcast (maxRetries : Nat) (retry : Bool) (peers : List Peer) (tape : Nat → Nat → Attempt ρ) :
    Dict String (Option ρ) :=
  Dict.empty.fill ((tasks peers).entries.map fun task => (task.1, (send maxRetries retry (tape task.2)).result))

/-! ### One send -/

private theorem sendLoop_of_retried (m attempt : Nat) {a : Attempt ρ} (h : a.post.retried = true)
    (rest : List (Attempt ρ)) : sendLoop m attempt (a :: rest) = { sendLoop m (attempt + 1) rest with
      attempts := a :: (sendLoop m (attempt + 1) rest).attempts
      delays := if attempt < m - 1 then 2 ^ attempt :: (sendLoop m (attempt + 1) rest).delays
        else (sendLoop m (attempt + 1) rest).delays } := by
  rw [sendLoop]
  cases hpost : a.post with
  | ok body => rw [hpost] at h; cases h
  | unexpected => rw [hpost] at h; cases h
  | status code => rfl
  | timeout => rfl
  | clientError => rfl

private theorem sendLoop_of_not_retried (m attempt : Nat) {a : Attempt ρ} (h : a.post.retried = false)
    (rest : List (Attempt ρ)) : (sendLoop m attempt (a :: rest)).attempts = [a] ∧
      (sendLoop m attempt (a :: rest)).delays = [] ∧
      ∀ body, (sendLoop m attempt (a :: rest)).result = some body ↔ a.post = .ok body := by
  rw [sendLoop]
  cases hpost : a.post with
  | ok body => exact ⟨rfl, rfl, fun body' => by simp⟩
  | unexpected => exact ⟨rfl, rfl, fun body' => by simp⟩
  | status code => rw [hpost] at h; cases h
  | timeout => rw [hpost] at h; cases h
  | clientError => rw [hpost] at h; cases h

/-- The attempts are those of the tape, and all but the last have failed in a way that is tried again. -/
theorem attempts_sendLoop (m attempt : Nat) (tape : List (Attempt ρ)) :
    (sendLoop m attempt tape).attempts <+: tape ∧
      (∀ a ∈ (sendLoop m attempt tape).attempts.dropLast, a.post.retried = true) ∧
      (tape ≠ [] → (sendLoop m attempt tape).attempts ≠ []) := by
  induction tape generalizing attempt with
  | nil => exact ⟨List.prefix_rfl, List.forall_mem_nil _, fun h => absurd rfl h⟩
  | cons a rest ih =>
    cases hretried : a.post.retried with
    | false =>
      rw [(sendLoop_of_not_retried m attempt hretried rest).1]
      exact ⟨⟨rest, rfl⟩, List.forall_mem_nil _, fun _ => List.cons_ne_nil _ _⟩
    | true =>
      obtain ⟨hpre, hall, -⟩ := ih (attempt + 1)
      rw [sendLoop_of_retried m attempt hretried]
      refine ⟨List.cons_prefix_cons.2 ⟨rfl, hpre⟩, fun b hb => ?_, fun _ => List.cons_ne_nil _ _⟩
      cases hlater : (sendLoop m (attempt + 1) rest).attempts with
      | nil => simp [hlater] at hb
      | cons b' later =>
        rw [hlater, List.dropLast_cons_cons, List.mem_cons] at hb
        rcases hb with rfl | hb
        · exact hretried
        · exact hall b (by rw [hlater]; exact hb)

/-- Between two attempts the sender waits, twice as long each time. -/
theorem delays_sendLoop {m attempt : Nat} {tape : List (Attempt ρ)} (hlen : attempt + tape.length = m) :
    (sendLoop m attempt tape).delays =
      (List.range' attempt ((sendLoop m attempt tape).attempts.length - 1)).map fun i => 2 ^ i := by
  induction tape generalizing attempt with
  | nil => rfl
  | cons a rest ih =>
    rw [List.length_cons] at hlen
    cases hretried : a.post.retried with
    | false =>
      obtain ⟨hattempts, hdelays, -⟩ := sendLoop_of_not_retried m attempt hretried rest
      rw [hattempts, hdelays]
      rfl
    | true =>
      have hlater := @ih (attempt + 1) (by omega)
      rw [sendLoop_of_retried m attempt hretried]
      simp only [List.length_cons, Nat.add_sub_cancel]
      cases hrest : rest with
      | nil =>
        have hlast : ¬attempt < m - 1 := by
          rw [hrest, List.length_nil] at hlen
          omega
        rw [if_neg hlast]
        rfl
      | cons b rest' =>
        -- another attempt is made
        have hne : (sendLoop m (attempt + 1) rest).attempts ≠ [] :=
          (attempts_sendLoop m (attempt + 1) rest).2.2 (by rw [hrest]; exact List.cons_ne_nil _ _)
        have hpos : 0 < (sendLoop m (attempt + 1) rest).attempts.length := List.length_pos_of_ne_nil hne
        have hmore : attempt < m - 1 := by
          rw [hrest, List.length_cons] at hlen
          omega
        obtain ⟨k, hk⟩ : ∃ k, (sendLoop m (attempt + 1) rest).attempts.length = k + 1 :=
          ⟨_, (Nat.sub_add_cancel hpos).symm⟩
        rw [← hrest, if_pos hmore, hlater, hk, Nat.add_sub_cancel, List.range'_succ, List.map_cons]

/-- The result is the first answer with status 200, if only failures that are tried again come before it. -/
theorem result_sendLoop (m attempt : Nat) (tape : List (Attempt ρ)) (body : ρ) :
    (sendLoop m attempt tape).result = some body ↔
      ∃ before a after, tape = before ++ a :: after ∧ a.post = .ok body ∧ ∀ b ∈ before, b.post.retried = true := by
  induction tape generalizing attempt with
  | nil =>
    refine iff_of_false (fun h => by cases h) ?_
    rintro ⟨before, a, after, h, -⟩
    simp at h
  | cons a rest ih =>
    cases hretried : a.post.retried with
    | false =>
      rw [(sendLoop_of_not_retried m attempt hretried rest).2.2 body]
      constructor
      · intro hpost
        exact ⟨[], a, rest, rfl, hpost, List.forall_mem_nil _⟩
      · rintro ⟨before, a', after, hsplit, hpost, hall⟩
        cases before with
        | nil =>
          obtain ⟨rfl, -⟩ := List.cons.inj hsplit
          exact hpost
        | cons b before =>
          obtain ⟨rfl, -⟩ := List.cons.inj hsplit
          rw [hall a List.mem_cons_self] at hretried
          cases hretried
    | true =>
      rw [sendLoop_of_retried m attempt hretried]
      simp only
      rw [ih (attempt + 1)]
      constructor
      · rintro ⟨before, a', after, rfl, hpost, hall⟩
        refine ⟨a :: before, a', after, rfl, hpost, fun b hb => ?_⟩
        rcases List.mem_cons.1 hb with rfl | hb
        · exact hretried
        · exact hall b hb
      · rintro ⟨before, a', after, hsplit, hpost, hall⟩
        cases before with
        | nil =>
          obtain ⟨rfl, -⟩ := List.cons.inj hsplit
          rw [hpost] at hretried
          cases hretried
        | cons b before =>
          obtain ⟨-, hrest⟩ := List.cons.inj hsplit
          exact ⟨before, a', after, hrest, hpost, fun b' hb' => hall b' (List.mem_cons_of_mem _ hb')⟩

/-- The answer that is returned is that of an attempt that was made. -/
theorem mem_attempts_of_result {m attempt : Nat} {tape : List (Attempt ρ)} {body : ρ}
    (h : (sendLoop m attempt tape).result = some body) :
    ∃ a ∈ (sendLoop m attempt tape).attempts, a.post = .ok body := by
  induction tape generalizing attempt with
  | nil => cases h
  | cons a rest ih =>
    cases hretried : a.post.retried with
    | false =>
      obtain ⟨hattempts, -, hresult⟩ := sendLoop_of_not_retried m attempt hretried rest
      rw [hattempts]
      exact ⟨a, List.mem_singleton_self _, (hresult body).1 h⟩
    | true =>
      rw [sendLoop_of_retried m attempt hretried] at h ⊢
      obtain ⟨b, hb, hpost⟩ := ih h
      exact ⟨b, List.mem_cons_of_mem _ hb, hpost⟩

private theorem prefix_range_map {α : Type} {f : Nat → α} {n : Nat} {l : List α} (h : l <+: (List.range n).map f) :
    l.length ≤ n ∧ l = (List.range l.length).map f := by
  have hlen : l.length ≤ n := by simpa using h.length_le
  have htake := List.prefix_iff_eq_take.1 h
  rw [← List.map_take, List.take_range, Nat.min_eq_left hlen] at htake
  exact ⟨hlen, htake⟩

private theorem split_range_map {α : Type} {f : Nat → α} {n : Nat} {before after : List α} {a : α}
    (h : (List.range n).map f = before ++ a :: after) :
    before.length < n ∧ a = f before.length ∧ before = (List.range before.length).map f := by
  have hbefore : before <+: (List.range n).map f := ⟨a :: after, h.symm⟩
  have hwith : before ++ [a] <+: (List.range n).map f := ⟨after, by rw [h, List.append_assoc, List.singleton_append]⟩
  obtain ⟨hlen, hmap⟩ := prefix_range_map hwith
  obtain ⟨-, hbefore'⟩ := prefix_range_map hbefore
  rw [List.length_append, List.length_singleton] at hlen hmap
  rw [List.range_succ, List.map_append, List.map_singleton] at hmap
  exact ⟨hlen, List.singleton_inj.1 (List.append_inj' hmap rfl).2, hbefore'⟩

/-- What a send does: the attempts are the first of the tape, at least one and not more than are allowed, with the
delays between them; and the result is the first answer with status 200. -/
theorem send_eq (maxRetries : Nat) (retry : Bool) (tape : Nat → Attempt ρ) :
    ∃ k ≤ maxAttempts maxRetries retry, (0 < maxAttempts maxRetries retry → 0 < k) ∧
      (send maxRetries retry tape).attempts = (List.range k).map tape ∧
      (send maxRetries retry tape).delays = (List.range (k - 1)).map (fun i => 2 ^ i) ∧
      ∀ body, (send maxRetries retry tape).result = some body ↔ ∃ i < maxAttempts maxRetries retry,
        (tape i).post = .ok body ∧ ∀ j < i, (tape j).post.retried = true := by
  generalize hn : maxAttempts maxRetries retry = n
  have hsend : send maxRetries retry tape = sendLoop n 0 ((List.range n).map tape) := by rw [send, hn]
  obtain ⟨hpre, -, hne⟩ := attempts_sendLoop n 0 ((List.range n).map tape)
  obtain ⟨hlen, hattempts⟩ := prefix_range_map hpre
  have hdelays : (sendLoop n 0 ((List.range n).map tape)).delays =
      (List.range' 0 ((sendLoop n 0 ((List.range n).map tape)).attempts.length - 1)).map fun i => 2 ^ i :=
    delays_sendLoop (by simp)
  rw [hsend]
  refine ⟨_, hlen, fun hpos => ?_, hattempts, ?_, fun body => ?_⟩
  · refine List.length_pos_of_ne_nil (hne fun hnil => ?_)
    rw [List.map_eq_nil_iff, List.range_eq_nil] at hnil
    omega
  · rw [hdelays, ← List.range_eq_range']
  · rw [result_sendLoop]
    constructor
    · rintro ⟨before, a, after, hsplit, hpost, hall⟩
      obtain ⟨hi, rfl, hbefore⟩ := split_range_map hsplit
      refine ⟨before.length, hi, hpost, fun j hj => hall _ ?_⟩
      rw [hbefore]
      exact List.mem_map_of_mem (List.mem_range.2 hj)
    · rintro ⟨i, hi, hpost, hall⟩
      have hrange : List.range n = List.range i ++ i :: List.range' (i + 1) (n - (i + 1)) := by
        have hsum : n = i + (n - (i + 1) + 1) := by omega
        rw [List.range_eq_range', List.range_eq_range', ← List.range'_succ]
        nth_rewrite 1 [hsum]
        rw [← List.range'_append_1, Nat.zero_add]
      have hsplit : (List.range n).map tape =
          (List.range i).map tape ++ tape i :: (List.range' (i + 1) (n - (i + 1))).map tape := by
        rw [hrange, List.map_append, List.map_cons]
      refine ⟨_, _, _, hsplit, hpost, fun b hb => ?_⟩
      obtain ⟨j, hj, rfl⟩ := List.mem_map.1 hb
      exact hall j (List.mem_range.1 hj)

/-- The receiver handles a message if the send returns an answer, and not more often than attempts are allowed. -/
theorem send_handled (maxRetries : Nat) (retry : Bool) (tape : Nat → Attempt ρ) :
    ((send maxRetries retry tape).result.isSome → 1 ≤ (send maxRetries retry tape).attempts.countP Attempt.handled) ∧
      (send maxRetries retry tape).attempts.countP Attempt.handled ≤ maxAttempts maxRetries retry := by
  constructor
  · intro h
    obtain ⟨body, hbody⟩ := Option.isSome_iff_exists.1 h
    obtain ⟨a, ha, hpost⟩ := mem_attempts_of_result hbody
    exact List.countP_pos_iff.2 ⟨a, ha, a.answered body hpost⟩
  · obtain ⟨k, hk, -, hattempts, -, -⟩ := send_eq maxRetries retry tape
    refine (List.countP_le_length).trans ?_
    rw [hattempts, List.length_map, List.length_range]
    exact hk

/-! ### Broadcasts -/

/-- The entries of the tasks, one for each peer. -/
theorem getElem?_taskEntries (peers : List Peer) (i : Nat) :
    (peers.zipIdx.map fun p => (p.1.nodeId, p.2))[i]? = (peers[i]?.map Peer.nodeId).map fun id => (id, i) := by
  rw [List.getElem?_map, List.getElem?_zipIdx, Option.map_map, Option.map_map]
  simp only [Nat.zero_add]
  rfl

/-- The task of an id is that of the last peer with the id. -/
theorem get?_tasks {peers : List Peer} {id : String} {i : Nat} :
    (tasks peers).get? id = some i ↔
      (peers[i]?.map Peer.nodeId) = some id ∧ ∀ j, i < j → (peers[j]?.map Peer.nodeId) ≠ some id := by
  rw [tasks, Dict.get?_fill_empty]
  constructor
  · rintro ⟨before, after, hsplit, hnot⟩
    have hentry : ∀ j : Nat, (before ++ (id, i) :: after)[j]? = (peers[j]?.map Peer.nodeId).map fun id => (id, j) := by
      intro j
      rw [← hsplit]
      exact getElem?_taskEntries peers j
    have hhere := hentry before.length
    rw [List.getElem?_append_right (Nat.le_refl _), Nat.sub_self, List.getElem?_cons_zero] at hhere
    obtain ⟨id', hid', heq⟩ := Option.map_eq_some_iff.1 hhere.symm
    obtain ⟨rfl, rfl⟩ := Prod.mk.inj heq
    refine ⟨hid', fun j hj hsame => hnot ?_⟩
    have hlater := hentry j
    rw [hsame, Option.map_some, List.getElem?_append_right hj.le] at hlater
    obtain ⟨d, hd⟩ : ∃ d, j - before.length = d + 1 := ⟨j - before.length - 1, by omega⟩
    rw [hd, List.getElem?_cons_succ] at hlater
    exact List.mem_map.2 ⟨_, List.mem_of_getElem? hlater, rfl⟩
  · rintro ⟨hid, hlast⟩
    have hentry : (peers.zipIdx.map fun p => (p.1.nodeId, p.2))[i]? = some (id, i) := by
      rw [getElem?_taskEntries, hid, Option.map_some]
    generalize hl : (peers.zipIdx.map fun p => (p.1.nodeId, p.2)) = l at hentry
    obtain ⟨hi, hget⟩ := List.getElem?_eq_some_iff.1 hentry
    refine ⟨l.take i, l.drop (i + 1), ?_, fun hmem => ?_⟩
    · rw [← hget, List.getElem_cons_drop, List.take_append_drop]
    · obtain ⟨e, he, rfl⟩ := List.mem_map.1 hmem
      obtain ⟨d, hd⟩ := List.mem_iff_getElem?.1 he
      rw [List.getElem?_drop, ← hl, getElem?_taskEntries] at hd
      obtain ⟨id', hid', rfl⟩ := Option.map_eq_some_iff.1 hd
      exact hlast _ (by omega) hid'

private theorem get?_broadcast (maxRetries : Nat) (retry : Bool) (peers : List Peer) (tape : Nat → Nat → Attempt ρ)
    {id : String} {r : Option ρ} : (broadcast maxRetries retry peers tape).get? id = some r ↔
      ∃ i, (tasks peers).get? id = some i ∧ (send maxRetries retry (tape i)).result = r := by
  have hentries : (broadcast maxRetries retry peers tape).entries =
      (tasks peers).entries.map fun task => (task.1, (send maxRetries retry (tape task.2)).result) := by
    rw [broadcast, Dict.entries_fill]
    · rfl
    · rw [List.map_map]
      exact (tasks peers).nodup
  constructor
  · intro h
    have hmem := Dict.mem_of_get? h
    rw [hentries] at hmem
    obtain ⟨task, htask, heq⟩ := List.mem_map.1 hmem
    obtain ⟨rfl, hr⟩ := Prod.mk.inj heq
    exact ⟨task.2, Dict.get?_of_mem htask, hr⟩
  · rintro ⟨i, hi, rfl⟩
    refine Dict.get?_of_mem ?_
    rw [hentries]
    exact List.mem_map.2 ⟨(id, i), Dict.mem_of_get? hi, rfl⟩

/-- A broadcast has one result for each id among the peers, that of the send to the last peer with the id: an answer
just if one of the allowed attempts is answered with status 200 and only failures that are tried again come before
it.  In any case every peer gets at least one attempt and not more than are allowed, and a peer whose answer is
returned has handled the message. -/
theorem broadcast_answers (maxRetries : Nat) (retry : Bool) (peers : List Peer) (tape : Nat → Nat → Attempt ρ) :
    (∀ id, id ∈ (broadcast maxRetries retry peers tape).keys ↔ ∃ peer ∈ peers, peer.nodeId = id) ∧
      (∀ id body, (broadcast maxRetries retry peers tape).get? id = some (some body) ↔
        ∃ i, (peers[i]?.map Peer.nodeId = some id ∧ ∀ j, i < j → peers[j]?.map Peer.nodeId ≠ some id) ∧
          ∃ k < maxAttempts maxRetries retry, (tape i k).post = .ok body ∧
            ∀ j < k, (tape i j).post.retried = true) ∧
      ∀ i < peers.length, ∃ k ≤ maxAttempts maxRetries retry, (0 < maxAttempts maxRetries retry → 0 < k) ∧
        (send maxRetries retry (tape i)).attempts = (List.range k).map (tape i) ∧
        (send maxRetries retry (tape i)).delays = (List.range (k - 1)).map (fun j => 2 ^ j) ∧
        (send maxRetries retry (tape i)).attempts.countP Attempt.handled ≤ maxAttempts maxRetries retry ∧
        ((send maxRetries retry (tape i)).result.isSome →
          1 ≤ (send maxRetries retry (tape i)).attempts.countP Attempt.handled) := by
  refine ⟨fun id => ?_, fun id body => ?_, fun i _ => ?_⟩
  · rw [broadcast, Dict.mem_keys_fill, List.map_map]
    show id ∈ (tasks peers).keys ∨ id ∈ Dict.empty.keys ↔ _
    rw [tasks, Dict.mem_keys_fill, List.map_map, or_assoc, List.mem_map]
    constructor
    · rintro (⟨p, hp, rfl⟩ | h | h)
      · exact ⟨p.1, (List.mem_zipIdx hp).2.2 ▸ List.getElem_mem _, rfl⟩
      · cases h
      · cases h
    · rintro ⟨peer, hpeer, rfl⟩
      obtain ⟨i, hi⟩ := List.mem_iff_getElem?.1 hpeer
      exact Or.inl ⟨(peer, i), List.mk_mem_zipIdx_iff_getElem?.2 hi, rfl⟩
  · rw [get?_broadcast]
    constructor
    · rintro ⟨i, hi, hresult⟩
      obtain ⟨k, -, -, -, -, hiff⟩ := send_eq maxRetries retry (tape i)
      exact ⟨i, get?_tasks.1 hi, (hiff body).1 hresult⟩
    · rintro ⟨i, hi, hanswer⟩
      obtain ⟨k, -, -, -, -, hiff⟩ := send_eq maxRetries retry (tape i)
      exact ⟨i, get?_tasks.2 hi, (hiff body).2 hanswer⟩
  · obtain ⟨k, hk, hpos, hattempts, hdelays, -⟩ := send_eq maxRetries retry (tape i)
    obtain ⟨hhandled, hbound⟩ := send_handled maxRetries retry (tape i)
    exact ⟨k, hk, hpos, hattempts, hdelays, hbound, hhandled⟩

end MessagePassing

end DistributedSync
