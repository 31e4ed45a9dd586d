/-!
# The live sockets of a messaging library

A socket is bound to its endpoint or connected to it. Any number of sockets may be connected to an
endpoint, and connecting never fails; at most one live socket is bound to it. A socket is known by
a number that no other socket gets, live or not.
-/

namespace Infra

variable {ε : Type _}

/-- How a socket is attached to its endpoint. -/
inductive Attach where
  | bind
  | connect
  deriving DecidableEq, Repr

/-- The endpoint a socket attached to `e` is bound to. -/
def Attach.bound : Attach → ε → Option ε
  | .bind, e => some e
  | .connect, _ => none

structure Socket (ε : Type _) where
  id : Nat
  /-- The endpoint it is bound to, if it is bound. -/
  bound : Option ε

structure Sockets (ε : Type _) where
  live : List (Socket ε)
  /-- The number of the next socket. -/
  next : Nat
  lt_next : ∀ s ∈ live, s.id < next

namespace Sockets

/-- A live socket is bound to `e`. -/
def Taken (z : Sockets ε) (e : ε) : Prop := ∃ s ∈ z.live, s.bound = some e

instance [DecidableEq ε] (z : Sockets ε) (e : ε) : Decidable (z.Taken e) :=
  inferInstanceAs (Decidable (∃ s ∈ z.live, s.bound = some e))

/-- The socket `id` is live. -/
def Live (z : Sockets ε) (id : Nat) : Prop := ∃ s ∈ z.live, s.id = id

theorem lt_next_cons (z : Sockets ε) (b : Option ε) :
    ∀ s ∈ (⟨z.next, b⟩ : Socket ε) :: z.live, s.id < z.next + 1 := by
  intro s hs
  rcases List.mem_cons.mp hs with rfl | hs
  · exact Nat.lt_succ_self _
  · exact Nat.lt_succ_of_lt (z.lt_next s hs)

/-- One more socket. -/
def add (z : Sockets ε) (b : Option ε) : Sockets ε where
  live := ⟨z.next, b⟩ :: z.live
  next := z.next + 1
  lt_next := z.lt_next_cons b

/-- Opening a socket: its number, `none` when the endpoint it is to be bound to is taken. -/
def create [DecidableEq ε] (z : Sockets ε) (a : Attach) (e : ε) : Option Nat × Sockets ε :=
  if a = .bind ∧ z.Taken e then (none, z) else (some z.next, z.add (a.bound e))

/-- Closing the socket `id`. -/
def destroy (z : Sockets ε) (id : Nat) : Sockets ε where
  live := z.live.filter fun s => s.id != id
  next := z.next
  lt_next := fun s hs => z.lt_next s (List.mem_filter.mp hs).1

theorem mem_destroy {z : Sockets ε} {id : Nat} {s : Socket ε} :
    s ∈ (z.destroy id).live ↔ s ∈ z.live ∧ s.id ≠ id := by
  show s ∈ z.live.filter _ ↔ _
  rw [List.mem_filter, bne_iff_ne]

variable [DecidableEq ε] {z : Sockets ε} {a : Attach} {e : ε}

/-- Opening a socket closes none. -/
theorem mem_create {s : Socket ε} (h : s ∈ z.live) : s ∈ (z.create a e).2.live := by
  unfold create
  split
  · exact h
  · exact List.mem_cons_of_mem _ h

theorem Taken.create {e' : ε} (h : z.Taken e) : (z.create a e').2.Taken e := by
  obtain ⟨s, hs, hbound⟩ := h
  exact ⟨s, mem_create hs, hbound⟩

/-- **A socket that was opened**: its number is new, and it is live. -/
theorem create_eq_some {id : Nat} (h : (z.create a e).1 = some id) :
    id = z.next ∧ ⟨id, a.bound e⟩ ∈ (z.create a e).2.live := by
  unfold create at h ⊢
  split at h
  · exact absurd h (by simp)
  · rename_i hfree
    cases h
    rw [if_neg hfree]
    exact ⟨rfl, List.mem_cons_self⟩

/-- An endpoint that is taken cannot be bound again. -/
theorem create_of_taken (h : z.Taken e) : (z.create .bind e).1 = none := by
  unfold create
  rw [if_pos ⟨rfl, h⟩]

end Sockets

end Infra
