import Mathlib.Order.Monotone.Basic
import Mathlib.Tactic.ByContra
import Mathlib.Tactic.Choose
import QemuHdlSim.Infra.Fifo
import QemuHdlSim.Infra.Path

/-!
# Runs without end

`Path` says what has happened so far. What must happen at some time is said of a run without end,
`Forever R`: a state and an input for each time. A predicate of times, `P : Nat → Prop`, stands for
"`P` holds at time `n`"; `LeadsTo P Q` says that where `P` holds, `Q` does, then or later.

Nothing must happen without an assumption on the choices. `WeaklyFair En Tk` is the usual one: what
can be done from some time on (`En`) is done (`Tk`). `StronglyFair En Tk` asks only that it can be
done again and again.

## The rules

* `LeadsTo.of_imp`, `LeadsTo.trans`, `LeadsTo.or`
* `LeadsTo.ensures` — `P` stays until the fair step that leads to `Q`
* `LeadsTo.strong` — the same where the step can be taken again and again
* `LeadsTo.of_measure` — a measure goes down until `Q` holds
* `LeadsTo.psp` — what stays until then
* `exists_le_of_progress` — a counter that grows as long as it is below a bound
* `Forever.exists_handed`, `Forever.handedOver` — a law of what is owed, and a step that hands
  something over
* `Fifo.leadsTo_of_single`, `Fifo.exists_taken`, `Fifo.allTaken` — a pipe that delivers and a
  receiver that takes
* `Forever.of_stay` — a finite run, continued by one input
-/

namespace Infra

variable {σ ι ε α : Type _}

/-- A run without end. -/
structure Forever (R : σ → ι → σ → Prop) where
  state : Nat → σ
  input : Nat → ι
  next : ∀ n, R (state n) (input n) (state (n + 1))

namespace Forever

variable {R : σ → ι → σ → Prop} (r : Forever R)

/-- The steps before time `n`. -/
def upTo (n : Nat) : List (σ × ι) := (List.range n).map fun k => (r.state k, r.input k)

theorem upTo_succ (n : Nat) : r.upTo (n + 1) = r.upTo n ++ [(r.state n, r.input n)] := by
  rw [upTo, List.range_succ, List.map_append]
  rfl

theorem mem_upTo {n : Nat} {c : σ × ι} (h : c ∈ r.upTo n) :
    ∃ k < n, c = (r.state k, r.input k) := by
  obtain ⟨k, hk, rfl⟩ := List.mem_map.mp h
  exact ⟨k, List.mem_range.mp hk, rfl⟩

theorem step_mem_upTo {n k : Nat} (h : k < n) : (r.state k, r.input k) ∈ r.upTo n :=
  List.mem_map.mpr ⟨k, List.mem_range.mpr h, rfl⟩

/-- They are a run. -/
theorem path (n : Nat) : Path R (r.state 0) (r.upTo n) (r.state n) := by
  induction n with
  | zero => exact Path.nil _
  | succ n ih =>
    rw [upTo_succ]
    exact ih.append (Path.cons (r.next n) (Path.nil _))

theorem upTo_add (n k : Nat) :
    r.upTo (n + k)
      = r.upTo n ++ (List.range k).map fun i => (r.state (n + i), r.input (n + i)) := by
  unfold upTo
  rw [List.range_add, List.map_append, List.map_map]
  rfl

/-- The events so far only get more. -/
theorem events_upTo_of_le (ev : σ → ι → List ε) {n k : Nat} (h : n ≤ k) :
    ∃ es, events ev (r.upTo k) = events ev (r.upTo n) ++ es := by
  induction k, h using Nat.le_induction with
  | base => exact ⟨[], (List.append_nil _).symm⟩
  | succ k _ ih =>
    obtain ⟨es, hes⟩ := ih
    exact ⟨es ++ events ev [(r.state k, r.input k)], by
      rw [upTo_succ, events_append, hes, List.append_assoc]⟩

theorem length_events_le (ev : σ → ι → List ε) {n k : Nat} (h : n ≤ k) :
    (events ev (r.upTo n)).length ≤ (events ev (r.upTo k)).length := by
  obtain ⟨es, hes⟩ := r.events_upTo_of_le ev h
  rw [hes, List.length_append]
  exact Nat.le_add_right _ _

end Forever

/-! ## At some time -/

/-- Where `P` holds, `Q` does, then or later. -/
def LeadsTo (P Q : Nat → Prop) : Prop := ∀ n, P n → ∃ k, n ≤ k ∧ Q k

/-- `P` holds again and again. -/
def Recurs (P : Nat → Prop) : Prop := ∀ n, ∃ k, n ≤ k ∧ P k

/-- What can be done from some time on is done. -/
def WeaklyFair (En Tk : Nat → Prop) : Prop := ∀ n, (∀ k, n ≤ k → En k) → ∃ k, n ≤ k ∧ Tk k

/-- What can be done again and again is done. -/
def StronglyFair (En Tk : Nat → Prop) : Prop := Recurs En → Recurs Tk

/-- What can be done less often is asked for less often. -/
theorem WeaklyFair.mono {En En' Tk : Nat → Prop} (h : WeaklyFair En Tk) (himp : ∀ n, En' n → En n) :
    WeaklyFair En' Tk :=
  fun n hn => h n fun k hk => himp k (hn k hk)

/-- What cannot be done any more need not be. -/
theorem WeaklyFair.of_never {En Tk : Nat → Prop} (b : Nat) (h : ∀ n, b ≤ n → ¬En n) :
    WeaklyFair En Tk :=
  fun n hn => absurd (hn (max n b) (Nat.le_max_left n b)) (h _ (Nat.le_max_right n b))

theorem StronglyFair.of_never {En Tk : Nat → Prop} (b : Nat) (h : ∀ n, b ≤ n → ¬En n) :
    StronglyFair En Tk := by
  intro hrecurs
  obtain ⟨k, hk, hEn⟩ := hrecurs b
  exact absurd hEn (h k hk)

theorem WeaklyFair.of_recurs {En Tk : Nat → Prop} (h : Recurs Tk) : WeaklyFair En Tk :=
  fun n _ => h n

/-- **Up to the next time** that `P` holds, what only changes then is as it was. -/
theorem Recurs.exists_unchanged {P : Nat → Prop} {f : Nat → α} (h : Recurs P)
    (hrest : ∀ n, ¬P n → f (n + 1) = f n) (n : Nat) : ∃ k, n ≤ k ∧ P k ∧ f k = f n := by
  obtain ⟨m, hm, hP⟩ := h n
  obtain ⟨d, rfl⟩ := Nat.exists_eq_add_of_le hm
  clear hm
  induction d generalizing n with
  | zero => exact ⟨n, Nat.le_refl n, hP, rfl⟩
  | succ d ih =>
    by_cases hnow : P n
    · exact ⟨n, Nat.le_refl n, hnow, rfl⟩
    · obtain ⟨k, hk, hPk, hf⟩ := ih (n + 1) (by rwa [Nat.add_right_comm])
      exact ⟨k, by omega, hPk, hf.trans (hrest n hnow)⟩

/-! A run that is known from `N` on, where another one is at `L`. -/

theorem Recurs.shift {P P' : Nat → Prop} {N L : Nat} (h : Recurs P)
    (hi : ∀ i, P (N + i) → P' (L + i)) : Recurs P' := by
  intro n
  obtain ⟨k, hk, hP⟩ := h (N + n)
  obtain ⟨i, rfl⟩ := Nat.exists_eq_add_of_le (Nat.le_trans (Nat.le_add_right N n) hk)
  exact ⟨L + i, by omega, hi i hP⟩

theorem WeaklyFair.shift {En En' Tk Tk' : Nat → Prop} {N L : Nat} (h : WeaklyFair En Tk)
    (hen : ∀ i, En' (L + i) → En (N + i)) (htk : ∀ i, Tk (N + i) → Tk' (L + i)) :
    WeaklyFair En' Tk' := by
  intro n hn
  have hall : ∀ k, N + n ≤ k → En k := by
    intro k hk
    obtain ⟨i, rfl⟩ := Nat.exists_eq_add_of_le (Nat.le_trans (Nat.le_add_right N n) hk)
    exact hen i (hn (L + i) (by omega))
  obtain ⟨k, hk, hTk⟩ := h (N + n) hall
  obtain ⟨i, rfl⟩ := Nat.exists_eq_add_of_le (Nat.le_trans (Nat.le_add_right N n) hk)
  exact ⟨L + i, by omega, htk i hTk⟩

theorem StronglyFair.shift {En En' Tk Tk' : Nat → Prop} {N L : Nat} (h : StronglyFair En Tk)
    (hen : ∀ i, En' (L + i) → En (N + i)) (htk : ∀ i, Tk (N + i) → Tk' (L + i)) :
    StronglyFair En' Tk' :=
  fun hrecurs => (h (hrecurs.shift hen)).shift htk

namespace LeadsTo

variable {P Q S En Tk : Nat → Prop}

theorem of_imp (h : ∀ n, P n → Q n) : LeadsTo P Q := fun n hn => ⟨n, Nat.le_refl n, h n hn⟩

theorem trans (h : LeadsTo P Q) (h' : LeadsTo Q S) : LeadsTo P S := by
  intro n hn
  obtain ⟨k, hk, hQ⟩ := h n hn
  obtain ⟨l, hl, hS⟩ := h' k hQ
  exact ⟨l, Nat.le_trans hk hl, hS⟩

theorem or (h : LeadsTo P S) (h' : LeadsTo Q S) : LeadsTo (fun n => P n ∨ Q n) S := by
  rintro n (hn | hn)
  · exact h n hn
  · exact h' n hn

/-- As long as `Q` does not hold, `P` stays. -/
theorem stays (hstay : ∀ n, P n → P (n + 1) ∨ Q (n + 1)) {n : Nat} (hn : P n)
    (hno : ∀ k, n ≤ k → ¬Q k) : ∀ k, n ≤ k → P k := by
  intro k hk
  induction k, hk using Nat.le_induction with
  | base => exact hn
  | succ k hk ih =>
    rcases hstay k ih with hP | hQ
    · exact hP
    · exact absurd hQ (hno (k + 1) (Nat.le_succ_of_le hk))

/-- **`P` stays until the fair step that leads to `Q`.** -/
theorem ensures (hstay : ∀ n, P n → P (n + 1) ∨ Q (n + 1)) (hen : ∀ n, P n → En n)
    (hgo : ∀ n, P n → Tk n → Q (n + 1)) (hfair : WeaklyFair En Tk) : LeadsTo P Q := by
  intro n hn
  by_contra hno
  have hnever : ∀ k, n ≤ k → ¬Q k := fun k hk hQ => hno ⟨k, hk, hQ⟩
  have hP := stays hstay hn hnever
  obtain ⟨k, hk, htk⟩ := hfair n fun k hk => hen k (hP k hk)
  exact hnever (k + 1) (Nat.le_succ_of_le hk) (hgo k (hP k hk) htk)

/-- **`P` stays, and every `Tk` lowers a measure**, until `Q` holds. -/
theorem of_measure {μ : Nat → Nat}
    (hstay : ∀ n, P n → Q (n + 1) ∨ P (n + 1) ∧ μ (n + 1) ≤ μ n ∧ (Tk n → μ (n + 1) < μ n))
    (hgo : Recurs Tk) : LeadsTo P Q := by
  intro n hn
  by_contra hno
  have hnever : ∀ k, n ≤ k → ¬Q k := fun k hk hQ => hno ⟨k, hk, hQ⟩
  have hstep : ∀ k, n ≤ k → P k → P (k + 1) ∧ μ (k + 1) ≤ μ k ∧ (Tk k → μ (k + 1) < μ k) := by
    intro k hk hP
    rcases hstay k hP with hQ | h
    · exact absurd hQ (hnever (k + 1) (Nat.le_succ_of_le hk))
    · exact h
  have hP := stays (fun k hk => (hstay k hk).symm.imp_left And.left) hn hnever
  have hmono : ∀ j k, n ≤ j → j ≤ k → μ k ≤ μ j := by
    intro j k hj hk
    induction k, hk using Nat.le_induction with
    | base => exact Nat.le_refl _
    | succ k hk ih =>
      exact Nat.le_trans (hstep k (Nat.le_trans hj hk) (hP k (Nat.le_trans hj hk))).2.1 ih
  -- the measure would get below any bound
  have hbelow : ∀ d, ∃ k, n ≤ k ∧ μ k + d ≤ μ n := by
    intro d
    induction d with
    | zero => exact ⟨n, Nat.le_refl n, Nat.le_refl _⟩
    | succ d ih =>
      obtain ⟨k, hk, hd⟩ := ih
      obtain ⟨j, hj, hTk⟩ := hgo k
      have hnj := Nat.le_trans hk hj
      have hlt := (hstep j hnj (hP j hnj)).2.2 hTk
      have hle := hmono k j hk hj
      exact ⟨j + 1, Nat.le_succ_of_le hnj, by omega⟩
  obtain ⟨k, _, hd⟩ := hbelow (μ n + 1)
  omega

/-- What stays until `Q` holds is still there when it does. -/
theorem psp {S : Nat → Prop} (h : LeadsTo P Q) (hstay : ∀ n, S n → ¬Q n → S (n + 1)) :
    LeadsTo (fun n => P n ∧ S n) fun n => Q n ∧ S n := by
  rintro n ⟨hP, hS⟩
  obtain ⟨k, hk, hQ⟩ := h n hP
  by_contra hno
  have hboth : ∀ j, n ≤ j → S j ∧ ¬Q j := by
    intro j hj
    induction j, hj using Nat.le_induction with
    | base => exact ⟨hS, fun hQ => hno ⟨n, Nat.le_refl n, hQ, hS⟩⟩
    | succ j hj ih =>
      have hS' := hstay j ih.1 ih.2
      exact ⟨hS', fun hQ => hno ⟨j + 1, Nat.le_succ_of_le hj, hQ, hS'⟩⟩
  exact (hboth k hk).2 hQ

/-- **The same where the step can be taken again and again**, as long as `P` stays. -/
theorem strong (hstay : ∀ n, P n → P (n + 1) ∨ Q (n + 1)) (hen : LeadsTo P fun n => En n ∨ Q n)
    (hgo : ∀ n, P n → Tk n → Q (n + 1)) (hfair : StronglyFair En Tk) : LeadsTo P Q := by
  intro n hn
  by_contra hno
  have hnever : ∀ k, n ≤ k → ¬Q k := fun k hk hQ => hno ⟨k, hk, hQ⟩
  have hP := stays hstay hn hnever
  have hrecurs : Recurs En := by
    intro m
    obtain ⟨k, hk, hEn | hQ⟩ := hen (max n m) (hP _ (Nat.le_max_left n m))
    · exact ⟨k, Nat.le_trans (Nat.le_max_right n m) hk, hEn⟩
    · exact absurd hQ (hnever k (Nat.le_trans (Nat.le_max_left n m) hk))
  obtain ⟨k, hk, htk⟩ := hfair hrecurs n
  exact hnever (k + 1) (Nat.le_succ_of_le hk) (hgo k (hP k hk) htk)

end LeadsTo

/-- A counter that grows, at some time, as long as it is below `b`, gets there. -/
theorem exists_le_of_progress {c : Nat → Nat} {b n : Nat}
    (h : ∀ m, n ≤ m → c m < b → ∃ k, m ≤ k ∧ c m < c k) : ∃ k, n ≤ k ∧ b ≤ c k := by
  suffices hall : ∀ d m, n ≤ m → b - c m ≤ d → ∃ k, n ≤ k ∧ b ≤ c k from
    hall _ n (Nat.le_refl n) (Nat.le_refl _)
  intro d
  induction d with
  | zero => exact fun m hm hd => ⟨m, hm, by omega⟩
  | succ d ih =>
    intro m hm hd
    by_cases hlt : c m < b
    · obtain ⟨k, hk, hck⟩ := h m hm hlt
      exact ih k (Nat.le_trans hm hk) (by omega)
    · exact ⟨m, hm, Nat.le_of_not_lt hlt⟩

/-! A law that takes what a step does off the front of what is owed. -/

section Owed

variable {R : σ → ι → σ → Prop} (r : Forever R) {ev credit : σ → ι → List ε} {owed : σ → List ε}
  (hlaw : ∀ n, owed (r.state n) ++ credit (r.state n) (r.input n)
    = ev (r.state n) (r.input n) ++ owed (r.state (n + 1)))
include hlaw

/-- What is owed stays as long as no step does anything. -/
theorem Forever.owed_stays {n : Nat} (hne : owed (r.state n) ≠ [])
    (hno : ∀ k, n ≤ k → ev (r.state k) (r.input k) = []) : ∀ k, n ≤ k → owed (r.state k) ≠ [] := by
  intro k hk
  induction k, hk using Nat.le_induction with
  | base => exact hne
  | succ k hk ih =>
    intro hnil
    have hstep := hlaw k
    rw [hno k hk, hnil, List.append_nil] at hstep
    exact ih (List.append_eq_nil_iff.mp hstep).1

/-- **Something is handed over**, where steps that do something recur as long as something is
owed. -/
theorem Forever.exists_handed {Tk : Nat → Prop} (hrecurs : Recurs Tk)
    (hgo : ∀ n, Tk n → owed (r.state n) ≠ [] → ev (r.state n) (r.input n) ≠ []) {n : Nat}
    (hne : owed (r.state n) ≠ []) : ∃ k, n ≤ k ∧ ev (r.state k) (r.input k) ≠ [] := by
  by_contra hno
  have hnever : ∀ k, n ≤ k → ev (r.state k) (r.input k) = [] := by
    intro k hk
    by_contra hev
    exact hno ⟨k, hk, hev⟩
  obtain ⟨k, hk, htk⟩ := hrecurs n
  exact hgo k htk (r.owed_stays hlaw hne hnever k hk) (hnever k hk)

/-- **What is owed is handed over**, where at some time a step does something as long as something
is owed. -/
theorem Forever.handedOver
    (hgo : ∀ n, owed (r.state n) ≠ [] → ∃ k, n ≤ k ∧ ev (r.state k) (r.input k) ≠ []) (n : Nat) :
    ∃ k, n ≤ k ∧ (events ev (r.upTo n)).length + (owed (r.state n)).length
      ≤ (events ev (r.upTo k)).length := by
  let done := fun k => (events ev (r.upTo k)).length
  have hstep : ∀ k, done (k + 1) = done k + (ev (r.state k) (r.input k)).length := by
    intro k
    simp only [done, upTo_succ, events_append, events_cons, events_nil, List.append_nil,
      List.length_append]
  have hmono : Monotone done := monotone_nat_of_le_succ fun k => by
    rw [hstep]
    exact Nat.le_add_right _ _
  -- nothing that is owed disappears
  have htotal : Monotone fun k => done k + (owed (r.state k)).length :=
    monotone_nat_of_le_succ fun k => by
      have hlen := congrArg List.length (hlaw k)
      rw [List.length_append, List.length_append] at hlen
      simp only [hstep]
      omega
  refine exists_le_of_progress (c := done) fun m hm hlt => ?_
  have hall : done n + (owed (r.state n)).length ≤ done m + (owed (r.state m)).length := htotal hm
  have howed : owed (r.state m) ≠ [] := by
    intro hnil
    rw [hnil, List.length_nil] at hall
    exact absurd hlt (Nat.not_lt.mpr hall)
  obtain ⟨k, hk, hev⟩ := hgo m howed
  have hpos := List.length_pos_iff.mpr hev
  have hle : done m ≤ done k := hmono hk
  exact ⟨k + 1, Nat.le_succ_of_le hk, by rw [hstep]; omega⟩

end Owed

/-! ## Pipes -/

namespace Fifo

/-- A frame is in flight. -/
def InFlight (q : Fifo α) : Prop := q.delivered < q.sent.length

/-- A frame is in the receiver's queue. -/
def Queued (q : Fifo α) : Prop := q.taken < q.delivered

/-- What can happen to a pipe in one step. -/
inductive Moves (q : Fifo α) : Fifo α → Prop
  | sends (xs : List α) : Moves q (q.sendAll xs)
  | arrives {q' : Fifo α} : q.deliver = some q' → Moves q q'
  /-- The receiver takes some of its queue, or none. -/
  | drains {q' : Fifo α} : q'.sent = q.sent → q.taken ≤ q'.taken → q'.delivered = q.delivered →
      Moves q q'

namespace Moves

variable {q q' : Fifo α}

theorem refl (q : Fifo α) : Moves q q := sends []

theorem takes {x : α} (h : q.recv? = some (x, q')) : Moves q q' := by
  obtain ⟨_, _, hsent, htaken, hdel⟩ := recv?_eq_some h
  exact drains hsent (htaken ▸ Nat.le_succ _) hdel

/-- The log only gets longer. -/
theorem log_le (h : Moves q q') : q.sent <+: q'.sent := by
  cases h with
  | sends xs =>
    rw [sendAll_sent]
    exact List.prefix_append _ _
  | arrives h => exact (deliver_eq_some h).1 ▸ List.prefix_rfl
  | drains hsent => exact hsent ▸ List.prefix_rfl

theorem sent_le (h : Moves q q') : q.sent.length ≤ q'.sent.length := h.log_le.length_le

theorem taken_le (h : Moves q q') : q.taken ≤ q'.taken := by
  cases h with
  | sends xs => exact Nat.le_of_eq (sendAll_taken q xs).symm
  | arrives h => exact Nat.le_of_eq (deliver_eq_some h).2.1.symm
  | drains _ htaken => exact htaken

/-- Before a frame is queued none is taken. -/
theorem taken_of_not_queued (h : Moves q q') (hq : ¬q.Queued) : q'.taken = q.taken := by
  cases h with
  | sends xs => exact sendAll_taken q xs
  | arrives h => exact (deliver_eq_some h).2.1
  | drains _ htaken hdel =>
    have hle := q'.taken_le
    unfold Queued at hq
    omega

theorem delivered_le (h : Moves q q') : q.delivered ≤ q'.delivered := by
  cases h with
  | sends xs => exact Nat.le_of_eq (sendAll_delivered q xs).symm
  | arrives h =>
    rw [(deliver_eq_some h).2.2]
    exact Nat.le_succ _
  | drains _ _ hdel => exact Nat.le_of_eq hdel.symm

/-- A queued frame is taken, or stays where it is. -/
theorem taken_or_queued (h : Moves q q') (hq : q.Queued) :
    q.taken < q'.taken ∨ q'.taken = q.taken ∧ q'.Queued := by
  have hdel := h.delivered_le
  cases h with
  | sends xs =>
    have htaken := sendAll_taken q xs
    unfold Queued at *
    omega
  | arrives h =>
    have htaken := (deliver_eq_some h).2.1
    unfold Queued at *
    omega
  | drains _ htaken hdel =>
    unfold Queued at *
    omega

/-- If no frame less is on its way, none was taken. -/
theorem queued_of_pending (h : Moves q q') (hq : q.Queued)
    (hp : q.pending.length ≤ q'.pending.length) : q'.Queued := by
  rcases h.taken_or_queued hq with hlt | ⟨_, hq'⟩
  · have hle := q'.taken_le_sent
    rw [pending, pending, List.length_drop, List.length_drop] at hp
    cases h with
    | sends xs => exact absurd (sendAll_taken q xs) (Nat.ne_of_gt hlt)
    | arrives h => exact absurd (deliver_eq_some h).2.1 (Nat.ne_of_gt hlt)
    | drains hsent =>
      rw [hsent] at hle hp
      omega
  · exact hq'

end Moves

/-- A frame on its way was sent and not taken. -/
theorem taken_lt_of_pending {q : Fifo α} (h : 0 < q.pending.length) :
    q.taken < q.sent.length := by
  rw [pending, List.length_drop] at h
  omega

/-- What arrives was in flight. -/
theorem inFlight_of_deliver {q q' : Fifo α} (h : q.deliver = some q') : q.InFlight := by
  obtain ⟨hsent, _, hdel⟩ := deliver_eq_some h
  have hle := q'.delivered_le
  rw [hsent, hdel] at hle
  exact hle

/-- When everything was taken nothing is in flight or queued. -/
theorem not_inFlight_of_drained {q : Fifo α} (h : q.sent.length = q.taken) : ¬q.InFlight := by
  have hle := q.taken_le
  unfold InFlight
  omega

theorem not_queued_of_drained {q : Fifo α} (h : q.sent.length = q.taken) : ¬q.Queued := by
  have hle := q.delivered_le
  unfold Queued
  omega

theorem pending_of_queued {q : Fifo α} (h : q.Queued) : q.pending ≠ [] := by
  have hle := q.delivered_le
  have hlt : q.taken < q.delivered := h
  rw [pending, Ne, List.drop_eq_nil_iff]
  omega

variable {q : Nat → Fifo α} {Tk : Nat → Prop}

theorem log_le_of_moves (hm : ∀ n, Moves (q n) (q (n + 1))) {n k : Nat} (h : n ≤ k) :
    (q n).sent <+: (q k).sent := by
  induction k, h using Nat.le_induction with
  | base => exact List.prefix_rfl
  | succ k _ ih => exact ih.trans (hm k).log_le

theorem sent_le_of_moves (hm : ∀ n, Moves (q n) (q (n + 1))) {n k : Nat} (h : n ≤ k) :
    (q n).sent.length ≤ (q k).sent.length := (log_le_of_moves hm h).length_le

theorem taken_le_of_moves (hm : ∀ n, Moves (q n) (q (n + 1))) {n k : Nat} (h : n ≤ k) :
    (q n).taken ≤ (q k).taken :=
  monotone_nat_of_le_succ (f := fun n => (q n).taken) (fun n => (hm n).taken_le) h

/-- A queued frame waits in the queue until it is taken. -/
theorem taken_or_queued_of_moves (hm : ∀ n, Moves (q n) (q (n + 1))) {n k : Nat} (h : n ≤ k)
    (hq : (q n).Queued) :
    (q n).taken < (q k).taken ∨ (q k).taken = (q n).taken ∧ (q k).Queued := by
  induction h with
  | refl => exact Or.inr ⟨rfl, hq⟩
  | @step k _ ih =>
    rcases ih with hlt | ⟨htaken, hqk⟩
    · exact Or.inl (Nat.lt_of_lt_of_le hlt (hm k).taken_le)
    · rcases (hm k).taken_or_queued hqk with hlt | ⟨hsame, hq'⟩
      · exact Or.inl (htaken ▸ hlt)
      · exact Or.inr ⟨hsame.trans htaken, hq'⟩

/-- **What is on its way arrives.** -/
theorem leadsTo_queued (hm : ∀ n, Moves (q n) (q (n + 1)))
    (hfair : WeaklyFair (fun n => (q n).InFlight) Tk)
    (hgo : ∀ n, Tk n → (q n).deliver = some (q (n + 1))) :
    LeadsTo (fun n => (q n).taken < (q n).sent.length) fun n => (q n).Queued := by
  have harrive : LeadsTo (fun n => (q n).taken < (q n).sent.length ∧ ¬(q n).Queued)
      fun n => (q n).Queued := by
    refine LeadsTo.ensures (fun n hn => ?_) (fun n hn => ?_) (fun n hn htk => ?_) hfair
    · by_cases hq : (q (n + 1)).Queued
      · exact Or.inr hq
      · refine Or.inl ⟨?_, hq⟩
        rw [(hm n).taken_of_not_queued hn.2]
        exact Nat.lt_of_lt_of_le hn.1 (hm n).sent_le
    · exact Nat.lt_of_le_of_lt (Nat.le_of_not_lt hn.2) hn.1
    · obtain ⟨_, htaken, hdel⟩ := deliver_eq_some (hgo n htk)
      have hle := (q n).taken_le
      unfold Queued
      omega
  intro n hn
  by_cases hq : (q n).Queued
  · exact ⟨n, Nat.le_refl n, hq⟩
  · exact harrive n ⟨hn, hq⟩

/-- **The only frame of a pipe is taken**: while `S` holds, which until then it does, there is one
frame, and the step `Tk` that takes it leads to `Q`. -/
theorem leadsTo_of_single {S Q : Nat → Prop} (hm : ∀ n, Moves (q n) (q (n + 1)))
    (harrive : LeadsTo (fun n => (q n).taken < (q n).sent.length) fun n => (q n).Queued)
    (hone : ∀ n, S n → (q n).pending.length = 1)
    (hstep : ∀ n, S n → (q n).Queued ∧ Q (n + 1) ∨ ¬Tk n ∧ S (n + 1))
    (hfair : WeaklyFair (fun n => (q n).Queued ∧ S n) Tk) : LeadsTo S Q := by
  have hqueued : LeadsTo (fun n => (q n).taken < (q n).sent.length ∧ S n)
      fun n => (q n).Queued ∧ S n := by
    refine harrive.psp fun n hn hq => ?_
    rcases hstep n hn with ⟨h, _⟩ | ⟨_, h⟩
    · exact absurd h hq
    · exact h
  have hsent : LeadsTo S fun n => (q n).taken < (q n).sent.length ∧ S n := by
    refine LeadsTo.of_imp fun n hn => ⟨taken_lt_of_pending ?_, hn⟩
    rw [hone n hn]
    exact Nat.one_pos
  refine (hsent.trans hqueued).trans (LeadsTo.ensures ?_ (fun n hn => hn) ?_ hfair)
  · rintro n ⟨hq, hn⟩
    rcases hstep n hn with ⟨_, h⟩ | ⟨_, h⟩
    · exact Or.inr h
    · refine Or.inl ⟨(hm n).queued_of_pending hq ?_, h⟩
      rw [hone n hn, hone (n + 1) h]
  · rintro n ⟨_, hn⟩ htk
    rcases hstep n hn with ⟨_, h⟩ | ⟨h, _⟩
    · exact h
    · exact absurd htk h

/-- The frame at the head of the queue waits there, or is taken. -/
theorem waits_or_taken (hm : ∀ n, Moves (q n) (q (n + 1))) {c n : Nat}
    (h : (q n).Queued ∧ (q n).taken = c) :
    (q (n + 1)).Queued ∧ (q (n + 1)).taken = c ∨ c < (q (n + 1)).taken := by
  obtain ⟨hq, rfl⟩ := h
  rcases (hm n).taken_or_queued hq with hlt | ⟨htaken, hq'⟩
  · exact Or.inr hlt
  · exact Or.inl ⟨hq', htaken⟩

/-- **A fair receiver** takes the frame at the head of its queue. -/
theorem exists_taken (hm : ∀ n, Moves (q n) (q (n + 1)))
    (hgo : ∀ n, (q n).Queued → Tk n → (q n).taken < (q (n + 1)).taken)
    (hfair : WeaklyFair (fun n => (q n).Queued) Tk) {n : Nat} (hq : (q n).Queued) :
    ∃ k, n ≤ k ∧ (q n).taken < (q k).taken := by
  have hleads : LeadsTo (fun k => (q k).Queued ∧ (q k).taken = (q n).taken)
      fun k => (q n).taken < (q k).taken :=
    LeadsTo.ensures (fun _ hk => waits_or_taken hm hk) (fun _ hk => hk.1)
      (fun k hk htk => hk.2 ▸ hgo k hk.1 htk) hfair
  exact hleads n ⟨hq, rfl⟩

/-- **Everything that was sent is taken**, if what is on its way arrives, and what has arrived is
not left in the queue. -/
theorem allTaken (hm : ∀ n, Moves (q n) (q (n + 1)))
    (harrive : LeadsTo (fun n => (q n).taken < (q n).sent.length) fun n => (q n).Queued)
    (htake : ∀ n, (q n).Queued → ∃ k, n ≤ k ∧ (q n).taken < (q k).taken) (n : Nat) :
    ∃ k, n ≤ k ∧ (q n).sent.length ≤ (q k).taken := by
  refine exists_le_of_progress (c := fun k => (q k).taken) fun m hnm hlt => ?_
  obtain ⟨k, hk, hq⟩ := harrive m (Nat.lt_of_lt_of_le hlt (sent_le_of_moves hm hnm))
  obtain ⟨l, hl, htaken⟩ := htake k hq
  exact ⟨l, Nat.le_trans hk hl, Nat.lt_of_le_of_lt (taken_le_of_moves hm hk) htaken⟩

end Fifo

/-! ## From a finite run -/

namespace Forever

variable {R : σ → ι → σ → Prop}

/-- One step more in front. -/
def cons (r : Forever R) {s : σ} {i : ι} (h : R s i (r.state 0)) : Forever R where
  state
    | 0 => s
    | n + 1 => r.state n
  input
    | 0 => i
    | n + 1 => r.input n
  next
    | 0 => h
    | n + 1 => r.next n

theorem upTo_cons (r : Forever R) {s : σ} {i : ι} (h : R s i (r.state 0)) (n : Nat) :
    (r.cons h).upTo (n + 1) = (s, i) :: r.upTo n := by
  rw [upTo, List.range_succ_eq_map, List.map_cons, List.map_map]
  rfl

/-- **A finite run in front.** -/
theorem exists_prepend (r : Forever R) {s : σ} {tr : List (σ × ι)} (h : Path R s tr (r.state 0)) :
    ∃ r' : Forever R, r'.state 0 = s ∧ ∀ n, r'.upTo (tr.length + n) = tr ++ r.upTo n ∧
      r'.state (tr.length + n) = r.state n ∧ r'.input (tr.length + n) = r.input n := by
  generalize ht : r.state 0 = t at h
  induction h with
  | nil => exact ⟨r, ht, fun n => by simp⟩
  | @cons a b c i tr hR _ ih =>
    obtain ⟨r', h0, hr'⟩ := ih ht
    refine ⟨r'.cons (h0 ▸ hR), rfl, fun n => ?_⟩
    obtain ⟨hupTo, hstate, hinput⟩ := hr' n
    rw [List.length_cons, Nat.add_right_comm]
    exact ⟨by rw [upTo_cons, hupTo, List.cons_append], hstate, hinput⟩

/-- The run of a circuit on the inputs `i`. -/
def ofInputs (step : σ → ι → σ) (s : σ) (i : Nat → ι) : Forever fun a k b => step a k = b where
  state n := ((List.range n).map i).foldl step s
  input := i
  next n := by rw [List.range_succ, List.map_append, List.foldl_append]; rfl

variable {step : σ → ι → Option σ} {s t : σ} {i : ι} {is : List ι} {I : σ → Prop}

/-- One input that is enabled from every state of `I`, and stays in it. -/
theorem exists_stay (ht : I t) (hstay : ∀ a, I a → ∃ b, step a i = some b ∧ I b) :
    ∃ r : Forever fun a i b => step a i = some b, r.state 0 = t ∧
      ∀ n, r.input n = i ∧ I (r.state n) := by
  choose! f hf hI using hstay
  have hall : ∀ n, I (f^[n] t) := by
    intro n
    induction n with
    | zero => exact ht
    | succ n ih =>
      rw [Function.iterate_succ_apply']
      exact hI _ ih
  refine ⟨⟨fun n => f^[n] t, fun _ => i, fun n => ?_⟩, rfl, fun n => ⟨rfl, hall n⟩⟩
  rw [Function.iterate_succ_apply']
  exact hf _ (hall n)

/-- **A finite run**, continued by one such input. -/
theorem of_stay (hrun : runM step s is = some t) (ht : I t)
    (hstay : ∀ a, I a → ∃ b, step a i = some b ∧ I b) :
    ∃ r : Forever fun a i b => step a i = some b, r.state 0 = s ∧
      r.upTo is.length = traceM step s is ∧
      ∀ n, is.length ≤ n → r.input n = i ∧ I (r.state n) := by
  obtain ⟨r, h0, hr⟩ := exists_stay ht hstay
  have hpath := path_traceM hrun
  rw [← h0] at hpath
  obtain ⟨r', hs, hr'⟩ := r.exists_prepend hpath
  rw [length_traceM hrun] at hr'
  refine ⟨r', hs, (hr' 0).1.trans (List.append_nil _), fun n hn => ?_⟩
  obtain ⟨k, rfl⟩ := Nat.exists_eq_add_of_le hn
  rw [(hr' k).2.1, (hr' k).2.2]
  exact hr k

end Forever

end Infra
