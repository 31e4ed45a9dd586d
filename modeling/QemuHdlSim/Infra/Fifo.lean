/-!
# Reliable first-in first-out pipes

A pipe between one sender and one receiver that loses nothing, repeats nothing and keeps the
order, but delays as it likes. It is kept as the log of everything ever sent and two cursors:

* `delivered` — how many frames have reached the receiver's side
* `taken` — how many of these the receiver has taken

What is in the receiver's queue is between the cursors, what is in flight is after both. That
the cursors are in this order is part of the type, so a pipe that has handed out a frame it
never got cannot be built, and "each frame once and in order" needs no proof.
-/

namespace Infra

variable {α : Type _}

/-- A pipe as the log of what was sent and two cursors into it. -/
structure Fifo (α : Type _) where
  sent : List α
  delivered : Nat
  taken : Nat
  taken_le : taken ≤ delivered
  delivered_le : delivered ≤ sent.length

namespace Fifo

/-- A pipe on which nothing was sent yet. -/
def empty : Fifo α := ⟨[], 0, 0, Nat.le_refl 0, Nat.le_refl 0⟩

/-- The sender puts a frame into the pipe. -/
def send (q : Fifo α) (x : α) : Fifo α where
  sent := q.sent ++ [x]
  delivered := q.delivered
  taken := q.taken
  taken_le := q.taken_le
  delivered_le := by
    have := q.delivered_le
    rw [List.length_append]
    omega

/-- Sends several frames, in order. -/
def sendAll (q : Fifo α) (xs : List α) : Fifo α := xs.foldl send q

/-- The oldest frame in flight reaches the receiver's queue. -/
def deliver (q : Fifo α) : Option (Fifo α) :=
  if h : q.delivered < q.sent.length then
    some { q with
      delivered := q.delivered + 1
      taken_le := Nat.le_succ_of_le q.taken_le
      delivered_le := h }
  else none

/-- The frame at the head of the receiver's queue. -/
def front? (q : Fifo α) : Option α := if q.taken < q.delivered then q.sent[q.taken]? else none

/-- The receiver takes the head of its queue; `none` when the queue is empty. -/
def recv? (q : Fifo α) : Option (α × Fifo α) :=
  if h : q.taken < q.delivered then
    some (q.sent.get ⟨q.taken, Nat.lt_of_lt_of_le h q.delivered_le⟩,
      { q with taken := q.taken + 1, taken_le := h })
  else none

/-- A receiver that handles up to `n` frames of its queue with `f`, until the queue is empty. -/
def drain? {β : Type _} (f : α → Option β) (q : Fifo α) : Nat → Option (List β × Fifo α)
  | 0 => some ([], q)
  | n + 1 =>
    match q.recv? with
    | none => some ([], q)
    | some (x, q') => do
      let y ← f x
      let (ys, q'') ← drain? f q' n
      return (y :: ys, q'')

/-- The frames in the receiver's queue. -/
def queued (q : Fifo α) : List α := (q.sent.take q.delivered).drop q.taken

/-- The frames that the receiver has not taken, in its queue or in flight. -/
def pending (q : Fifo α) : List α := q.sent.drop q.taken

@[simp] theorem send_sent (q : Fifo α) (x : α) : (q.send x).sent = q.sent ++ [x] := rfl
@[simp] theorem send_taken (q : Fifo α) (x : α) : (q.send x).taken = q.taken := rfl
@[simp] theorem send_delivered (q : Fifo α) (x : α) : (q.send x).delivered = q.delivered := rfl

@[simp] theorem sendAll_nil (q : Fifo α) : q.sendAll [] = q := rfl

theorem sendAll_cons (q : Fifo α) (x : α) (xs : List α) :
    q.sendAll (x :: xs) = (q.send x).sendAll xs := rfl

@[simp] theorem sendAll_sent (q : Fifo α) (xs : List α) :
    (q.sendAll xs).sent = q.sent ++ xs := by
  induction xs generalizing q with
  | nil => simp
  | cons x xs ih => rw [sendAll_cons, ih, send_sent, List.append_assoc]; rfl

@[simp] theorem sendAll_taken (q : Fifo α) (xs : List α) : (q.sendAll xs).taken = q.taken := by
  induction xs generalizing q with
  | nil => rfl
  | cons x xs ih => rw [sendAll_cons, ih, send_taken]

@[simp] theorem sendAll_delivered (q : Fifo α) (xs : List α) :
    (q.sendAll xs).delivered = q.delivered := by
  induction xs generalizing q with
  | nil => rfl
  | cons x xs ih => rw [sendAll_cons, ih, send_delivered]

theorem taken_le_sent (q : Fifo α) : q.taken ≤ q.sent.length :=
  Nat.le_trans q.taken_le q.delivered_le

/-- A delivery moves one cursor and nothing else. -/
theorem deliver_eq_some {q q' : Fifo α} (h : q.deliver = some q') :
    q'.sent = q.sent ∧ q'.taken = q.taken ∧ q'.delivered = q.delivered + 1 := by
  unfold deliver at h
  split at h
  · cases h; exact ⟨rfl, rfl, rfl⟩
  · exact absurd h (by simp)

/-- What the receiver takes is the next frame of the log. -/
theorem recv?_eq_some {q q' : Fifo α} {x : α} (h : q.recv? = some (x, q')) :
    q.taken < q.delivered ∧ q.sent[q.taken]? = some x ∧ q'.sent = q.sent ∧
      q'.taken = q.taken + 1 ∧ q'.delivered = q.delivered := by
  unfold recv? at h
  split at h
  · next hlt =>
    cases h
    exact ⟨hlt, List.getElem?_eq_getElem _, rfl, rfl, rfl⟩
  · exact absurd h (by simp)

theorem front?_of_recv? {q q' : Fifo α} {x : α} (h : q.recv? = some (x, q')) :
    q.front? = some x := by
  obtain ⟨hlt, hx, _⟩ := recv?_eq_some h
  unfold front?
  rw [if_pos hlt, hx]

theorem recv?_eq_none {q : Fifo α} : q.recv? = none ↔ q.delivered ≤ q.taken := by
  unfold recv?
  split
  · next h => simp only [reduceCtorEq, false_iff]; omega
  · next h => simp only [true_iff]; omega

@[simp] theorem pending_empty : (empty : Fifo α).pending = [] := rfl

@[simp] theorem pending_sendAll (q : Fifo α) (xs : List α) :
    (q.sendAll xs).pending = q.pending ++ xs := by
  unfold pending
  rw [sendAll_sent, sendAll_taken, List.drop_append_of_le_length q.taken_le_sent]

@[simp] theorem pending_send (q : Fifo α) (x : α) : (q.send x).pending = q.pending ++ [x] :=
  pending_sendAll q [x]

theorem pending_deliver {q q' : Fifo α} (h : q.deliver = some q') : q'.pending = q.pending := by
  obtain ⟨hsent, htaken, _⟩ := deliver_eq_some h
  rw [pending, pending, hsent, htaken]

/-- The receiver takes the first of the frames on their way. -/
theorem pending_recv? {q q' : Fifo α} {x : α} (h : q.recv? = some (x, q')) :
    q.pending = x :: q'.pending := by
  obtain ⟨_, hx, hsent, htaken, _⟩ := recv?_eq_some h
  obtain ⟨hlt, rfl⟩ := List.getElem?_eq_some_iff.mp hx
  rw [pending, pending, hsent, htaken, List.drop_eq_getElem_cons hlt]

/-- A pipe from which everything was taken has nothing to hand out. -/
theorem recv?_of_drained {q : Fifo α} (h : q.sent.length = q.taken) : q.recv? = none :=
  recv?_eq_none.mpr (h ▸ q.delivered_le)

/-- And nothing to deliver. -/
theorem deliver_of_drained {q : Fifo α} (h : q.sent.length = q.taken) : q.deliver = none := by
  have hle := q.taken_le
  exact dif_neg (by omega)

/-- Taking the next frame appends it to the taken part of the log. -/
theorem recv?_take {q q' : Fifo α} {x : α} (h : q.recv? = some (x, q')) :
    q'.sent.take q'.taken = q.sent.take q.taken ++ [x] := by
  obtain ⟨_, hx, hs, ht, _⟩ := recv?_eq_some h
  rw [hs, ht, List.take_add_one, hx]
  rfl

/-- **What a receiver has handled** are the frames between its two positions in the log. -/
theorem drain?_eq_some {β : Type _} {f : α → Option β} {q q' : Fifo α} {n : Nat} {ys : List β}
    (h : q.drain? f n = some (ys, q')) :
    q'.sent = q.sent ∧ ∃ xs, q'.sent.take q'.taken = q.sent.take q.taken ++ xs ∧
      xs.mapM f = some ys := by
  induction n generalizing q ys with
  | zero =>
    cases h
    exact ⟨rfl, [], (List.append_nil _).symm, rfl⟩
  | succ n ih =>
    unfold drain? at h
    split at h
    · cases h
      exact ⟨rfl, [], (List.append_nil _).symm, rfl⟩
    · next x q₁ hrecv =>
      obtain ⟨y, hy, h⟩ := Option.bind_eq_some_iff.mp h
      obtain ⟨⟨ys', q₂⟩, hdrain, h⟩ := Option.bind_eq_some_iff.mp h
      cases h
      obtain ⟨_, _, hsent, _⟩ := recv?_eq_some hrecv
      obtain ⟨hsent', xs, htaken, hxs⟩ := ih hdrain
      refine ⟨hsent'.trans hsent, x :: xs, ?_, ?_⟩
      · rw [htaken, recv?_take hrecv, List.append_assoc]
        rfl
      · rw [List.mapM_cons, hy, hxs]
        rfl

/-- It takes what is in the queue. -/
theorem drain?_taken {β : Type _} {f : α → Option β} {q q' : Fifo α} {n : Nat} {ys : List β}
    (h : q.drain? f n = some (ys, q')) :
    q'.delivered = q.delivered ∧ q'.taken = min (q.taken + n) q.delivered := by
  have hle := q.taken_le
  induction n generalizing q ys with
  | zero =>
    cases h
    exact ⟨rfl, by omega⟩
  | succ n ih =>
    unfold drain? at h
    split at h
    · next hnone =>
      cases h
      have hempty := recv?_eq_none.mp hnone
      exact ⟨rfl, by omega⟩
    · next x q₁ hrecv =>
      obtain ⟨y, _, h⟩ := Option.bind_eq_some_iff.mp h
      obtain ⟨⟨ys', q₂⟩, hdrain, h⟩ := Option.bind_eq_some_iff.mp h
      cases h
      obtain ⟨hlt, _, _, htaken, hdel⟩ := recv?_eq_some hrecv
      obtain ⟨hdel', htaken'⟩ := ih hdrain q₁.taken_le
      exact ⟨hdel'.trans hdel, by omega⟩

/-- It comes to its end when `f` handles every frame of the log. -/
theorem drain?_isSome {β : Type _} {f : α → Option β} {q : Fifo α}
    (h : ∀ x ∈ q.sent, ∃ y, f x = some y) (n : Nat) : ∃ r, q.drain? f n = some r := by
  induction n generalizing q with
  | zero => exact ⟨_, rfl⟩
  | succ n ih =>
    unfold drain?
    cases hrecv : q.recv? with
    | none => exact ⟨_, rfl⟩
    | some r =>
      obtain ⟨_, hget, hsent, _⟩ := recv?_eq_some hrecv
      obtain ⟨y, hy⟩ := h r.1 (List.mem_of_getElem? hget)
      obtain ⟨r', hr'⟩ := ih (q := r.2) (by rw [hsent]; exact h)
      refine ⟨(y :: r'.1, r'.2), ?_⟩
      simp only [hy, hr']
      rfl

end Fifo

end Infra
