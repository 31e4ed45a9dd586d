/-!
# Runs of a transition system

A system is a relation `R s i s'`: in state `s`, on input `i`, it may go to `s'`. A clocked
circuit is the case `s' = step s i`, a system some of whose inputs are not enabled in some
states is the case `step s i = some s'`.

A run is kept with the states it passes: `Path R s tr s'` says that from `s`, taking the inputs
of `tr` in order, the system reaches `s'`, and that `tr` pairs each input with the state it was
taken in. Everything that is said about a run is then said about a list:

* "every step meets `P`" is `∀ c ∈ tr, P c.1 c.2`
* "the events of the run" is `events ev tr`

## The run rules

* `Path.invariant` — what one step preserves, a run preserves
* `Path.history` — the same for what relates the state to the steps taken so far
* `Path.conserve` — when every step takes what it produces off the front of what it owes and
  puts what it newly owes at the back, then so does a run
* `Path.accumulate` — what every step appends to a log, a run appends in order
* `Path.functional` — where a step has one outcome, its inputs decide a run
* `Path.part` — what a component of the system does in a run
* `Leads.cons`, `Leads.append`, `Leads.stay`, `Leads.wait` — total correctness of a run of a
  partial step function, put together from that of its parts
-/

namespace Infra

variable {σ ι ε : Type _}

/-- `Path R s tr s'`: the run from `s` to `s'` whose steps are `tr`. -/
inductive Path (R : σ → ι → σ → Prop) : σ → List (σ × ι) → σ → Prop
  | nil (s : σ) : Path R s [] s
  | cons {s s' s'' : σ} {i : ι} {tr : List (σ × ι)} :
      R s i s' → Path R s' tr s'' → Path R s ((s, i) :: tr) s''

/-- The events of a run, in order; `ev s i` are those of the step on `i` in `s`. -/
def events (ev : σ → ι → List ε) (tr : List (σ × ι)) : List ε := tr.flatMap (fun c => ev c.1 c.2)

@[simp] theorem events_nil (ev : σ → ι → List ε) : events ev ([] : List (σ × ι)) = [] := rfl

@[simp] theorem events_cons (ev : σ → ι → List ε) (c : σ × ι) (tr : List (σ × ι)) :
    events ev (c :: tr) = ev c.1 c.2 ++ events ev tr := List.flatMap_cons

@[simp] theorem events_append (ev : σ → ι → List ε) (tr tr' : List (σ × ι)) :
    events ev (tr ++ tr') = events ev tr ++ events ev tr' := List.flatMap_append

namespace Path

variable {R : σ → ι → σ → Prop} {s s' s'' : σ} {i : ι} {tr tr' : List (σ × ι)}

theorem append (h : Path R s tr s') (h' : Path R s' tr' s'') : Path R s (tr ++ tr') s'' := by
  induction h with
  | nil => exact h'
  | cons hR _ ih => exact cons hR (ih h')

theorem snoc (h : Path R s tr s') (hR : R s' i s'') : Path R s (tr ++ [(s', i)]) s'' :=
  h.append (cons hR (nil _))

/-- A run cut in two. -/
theorem append_inv (h : Path R s (tr ++ tr') s'') : ∃ s', Path R s tr s' ∧ Path R s' tr' s'' := by
  induction tr generalizing s with
  | nil => exact ⟨s, nil s, h⟩
  | cons c tr ih =>
    cases h with
    | cons hR hp =>
      obtain ⟨s', h1, h2⟩ := ih hp
      exact ⟨s', cons hR h1, h2⟩

theorem cons_inv {c : σ × ι} (h : Path R s (c :: tr) s'') :
    ∃ s', c.1 = s ∧ R s c.2 s' ∧ Path R s' tr s'' := by
  cases h with
  | cons hR hp => exact ⟨_, rfl, hR, hp⟩

/-- The last step of a run. -/
theorem snoc_inv {c : σ × ι} (h : Path R s (tr ++ [c]) s'') :
    Path R s tr c.1 ∧ R c.1 c.2 s'' := by
  induction tr generalizing s with
  | nil =>
    cases h with
    | cons hR hp => cases hp; exact ⟨nil _, hR⟩
  | cons d tr ih =>
    cases h with
    | cons hR hp => exact ⟨cons hR (ih hp).1, (ih hp).2⟩

/-- **What one step preserves, a run preserves.** Every step may assume what is known of it. -/
theorem invariant {Inv : σ → Prop} {P : σ → ι → Prop} (h : Path R s tr s') (h0 : Inv s)
    (hP : ∀ c ∈ tr, P c.1 c.2)
    (hstep : ∀ a i b, Inv a → P a i → R a i b → Inv b) : Inv s' := by
  induction h with
  | nil => exact h0
  | cons hR _ ih =>
    exact ih (hstep _ _ _ h0 (hP _ List.mem_cons_self) hR)
      (fun c hc => hP c (List.mem_cons_of_mem _ hc))

/-- The invariant holds in the state each step of the run is taken in. -/
theorem invariant_mem {Inv : σ → Prop} {P : σ → ι → Prop} (h : Path R s tr s') (h0 : Inv s)
    (hP : ∀ c ∈ tr, P c.1 c.2)
    (hstep : ∀ a i b, Inv a → P a i → R a i b → Inv b) : ∀ c ∈ tr, Inv c.1 := by
  induction h with
  | nil => simp
  | cons hR _ ih =>
    intro c hc
    rcases List.mem_cons.mp hc with rfl | hc
    · exact h0
    · exact ih (hstep _ _ _ h0 (hP _ List.mem_cons_self) hR)
        (fun d hd => hP d (List.mem_cons_of_mem _ hd)) c hc

/-- What the trace shows was a step. -/
theorem step_of_mem (h : Path R s tr s') {c : σ × ι} (hc : c ∈ tr) : ∃ b, R c.1 c.2 b := by
  induction h with
  | nil => exact absurd hc List.not_mem_nil
  | cons hR _ ih =>
    rcases List.mem_cons.mp hc with rfl | hc
    · exact ⟨_, hR⟩
    · exact ih hc

/-- An invariant of the state and of the steps taken so far. -/
theorem history {Inv : List (σ × ι) → σ → Prop} {P : σ → ι → Prop} (h : Path R s tr s')
    (h0 : Inv [] s) (hP : ∀ c ∈ tr, P c.1 c.2)
    (hstep : ∀ past a i b, Inv past a → P a i → R a i b → Inv (past ++ [(a, i)]) b) :
    Inv tr s' := by
  suffices hrun : ∀ past, Inv past s → Inv (past ++ tr) s' from hrun [] h0
  clear h0
  induction h with
  | nil => exact fun past hp => by rwa [List.append_nil]
  | cons hR _ ih =>
    intro past hp
    have hnext := hstep past _ _ _ hp (hP _ List.mem_cons_self) hR
    have hend := ih (fun c hc => hP c (List.mem_cons_of_mem _ hc)) _ hnext
    rwa [List.append_assoc, List.singleton_append] at hend

/--
**Conservation of events.**

`owed a` is what a run from `a` still has to produce, oldest first. When every step takes what
it produces off the front and puts what it newly owes (`credit`) at the back, then over a run
everything owed at the start or put there since was either produced, in order, or is still owed.
`Inv` and `P` are what the step law may assume of the state and of the input.
-/
theorem conserve {ev credit : σ → ι → List ε} {owed : σ → List ε} {Inv : σ → Prop}
    {P : σ → ι → Prop} (h : Path R s tr s') (h0 : Inv s) (hP : ∀ c ∈ tr, P c.1 c.2)
    (hstep : ∀ a i b, Inv a → P a i → R a i b →
      Inv b ∧ owed a ++ credit a i = ev a i ++ owed b) :
    owed s ++ events credit tr = events ev tr ++ owed s' := by
  induction h with
  | nil => simp
  | cons hR _ ih =>
    -- the first step's events move to the front, the rest is the law of the tail
    obtain ⟨hb, howed⟩ := hstep _ _ _ h0 (hP _ List.mem_cons_self) hR
    rw [events_cons, events_cons, ← List.append_assoc, howed, List.append_assoc,
      List.append_assoc, ih hb (fun c hc => hP c (List.mem_cons_of_mem _ hc))]

/--
**Where something was lost.** When no step gains anything, counting what is owed before and after
it, and a run lost nothing, then every step of it meets the condition under which nothing is lost.
-/
theorem balanced {ev credit : σ → ι → List ε} {owed : σ → List ε} {P Q : σ → ι → Prop}
    (h : Path R s tr s') (hP : ∀ c ∈ tr, P c.1 c.2)
    (hstep : ∀ a i b, P a i → R a i b →
      (ev a i).length + (owed b).length ≤ (owed a).length + (credit a i).length ∧
        (¬Q a i → (ev a i).length + (owed b).length < (owed a).length + (credit a i).length)) :
    (events ev tr).length + (owed s').length ≤ (owed s).length + (events credit tr).length ∧
      ((owed s).length + (events credit tr).length ≤ (events ev tr).length + (owed s').length →
        ∀ c ∈ tr, Q c.1 c.2) := by
  induction h with
  | nil => simp
  | @cons a b t i tr hR _ ih =>
    obtain ⟨hle, hlt⟩ := hstep a i b (hP _ List.mem_cons_self) hR
    obtain ⟨hrest, hall⟩ := ih fun c hc => hP c (List.mem_cons_of_mem _ hc)
    simp only [events_cons, List.length_append]
    refine ⟨by omega, fun hbalanced c hc => ?_⟩
    -- a loss in this step would be one of the run, since the rest gains nothing
    rcases List.mem_cons.mp hc with rfl | hc
    · refine Classical.byContradiction fun hnot => ?_
      have hless := hlt hnot
      omega
    · exact hall (by omega) c hc

/-- Where a step has one outcome, its inputs decide a run. -/
theorem functional (hR : ∀ a i b c, R a i b → R a i c → b = c) (h : Path R s tr s')
    (h' : Path R s tr' s'') (hin : tr.map Prod.snd = tr'.map Prod.snd) : tr = tr' ∧ s' = s'' := by
  induction h generalizing tr' with
  | nil =>
    rw [List.map_nil, eq_comm, List.map_eq_nil_iff] at hin
    subst hin
    cases h'
    exact ⟨rfl, rfl⟩
  | cons hstep _ ih =>
    cases h' with
    | nil => exact absurd hin (by simp)
    | cons hstep' hrest =>
      rw [List.map_cons, List.map_cons, List.cons.injEq] at hin
      obtain ⟨hi, htail⟩ := hin
      simp only at hi
      subst hi
      have heq := hR _ _ _ _ hstep hstep'
      subst heq
      obtain ⟨rfl, rfl⟩ := ih hrest htail
      exact ⟨rfl, rfl⟩

/-- What every step appends to a log, a run appends in order. -/
theorem accumulate (out : σ → List ε) (ev : σ → ι → List ε) (h : Path R s tr s')
    (hstep : ∀ a i b, R a i b → out b = out a ++ ev a i) : out s' = out s ++ events ev tr := by
  induction h with
  | nil => simp
  | cons hR _ ih => rw [ih, hstep _ _ _ hR, events_cons, List.append_assoc]

end Path

/-! ## Executing a run -/

/-- The run of a partial step function, `none` when an input is not enabled. -/
def runM (step : σ → ι → Option σ) : σ → List ι → Option σ
  | s, [] => some s
  | s, i :: is => (step s i).bind (fun s' => runM step s' is)

/-- The steps of a deterministic run. -/
def traceOf (step : σ → ι → σ) : σ → List ι → List (σ × ι)
  | _, [] => []
  | s, i :: is => (s, i) :: traceOf step (step s i) is

theorem path_traceOf (step : σ → ι → σ) (s : σ) (is : List ι) :
    Path (fun a i b => step a i = b) s (traceOf step s is) (is.foldl step s) := by
  induction is generalizing s with
  | nil => exact Path.nil s
  | cons i is ih => exact Path.cons rfl (ih (step s i))

theorem length_traceOf (step : σ → ι → σ) (s : σ) (is : List ι) :
    (traceOf step s is).length = is.length := by
  induction is generalizing s with
  | nil => rfl
  | cons i is ih => rw [traceOf, List.length_cons, ih, List.length_cons]

theorem map_snd_traceOf (step : σ → ι → σ) (s : σ) (is : List ι) :
    (traceOf step s is).map Prod.snd = is := by
  induction is generalizing s with
  | nil => rfl
  | cons i is ih => rw [traceOf, List.map_cons, ih]

theorem traceOf_append (step : σ → ι → σ) (s : σ) (is js : List ι) :
    traceOf step s (is ++ js) = traceOf step s is ++ traceOf step (is.foldl step s) js := by
  induction is generalizing s with
  | nil => rfl
  | cons i is ih => rw [List.cons_append, traceOf, ih]; rfl

theorem snd_mem_of_traceOf {step : σ → ι → σ} {s : σ} {is : List ι} {c : σ × ι}
    (h : c ∈ traceOf step s is) : c.2 ∈ is := by
  rw [← map_snd_traceOf step s is]
  exact List.mem_map_of_mem h

/-! ## Clocked circuits -/

/-- A run of a clocked circuit all of whose inputs meet `P` (that reset is not asserted, say). -/
def ClockedRun (step : σ → ι → σ) (P : ι → Prop) (s : σ) (tr : List (σ × ι)) (s' : σ) : Prop :=
  Path (fun a i b => step a i = b) s tr s' ∧ ∀ c ∈ tr, P c.2

/-- The state behind the step `c` and the steps `tr` that follow it. -/
def stateAfter (step : σ → ι → σ) (c : σ × ι) : List (σ × ι) → σ
  | [] => step c.1 c.2
  | d :: tr => stateAfter step d tr

namespace ClockedRun

variable {step : σ → ι → σ} {P : ι → Prop} {s s' : σ} {tr tr' : List (σ × ι)}

theorem of_traceOf {is : List ι} (h : ∀ i ∈ is, P i) (s : σ) :
    ClockedRun step P s (traceOf step s is) (is.foldl step s) :=
  ⟨path_traceOf step s is, fun _ hc => h _ (snd_mem_of_traceOf hc)⟩

theorem append_inv (h : ClockedRun step P s (tr ++ tr') s') :
    ∃ m, ClockedRun step P s tr m ∧ ClockedRun step P m tr' s' := by
  obtain ⟨m, h1, h2⟩ := h.1.append_inv
  exact ⟨m, ⟨h1, fun c hc => h.2 c (List.mem_append_left _ hc)⟩,
    ⟨h2, fun c hc => h.2 c (List.mem_append_right _ hc)⟩⟩

theorem cons_inv {c : σ × ι} (h : ClockedRun step P s (c :: tr) s') :
    c.1 = s ∧ P c.2 ∧ ClockedRun step P (step s c.2) tr s' := by
  obtain ⟨m, hc, hm, hp⟩ := h.1.cons_inv
  subst hm
  exact ⟨hc, h.2 c List.mem_cons_self, hp, fun d hd => h.2 d (List.mem_cons_of_mem _ hd)⟩

/-- The state a run ends in is that behind its last step. -/
theorem stateAfter_eq {c : σ × ι} (h : ClockedRun step P s (tr ++ c :: tr') s') :
    stateAfter step c tr' = s' := by
  obtain ⟨m, -, hrest⟩ := h.append_inv
  clear h
  induction tr' generalizing m c with
  | nil =>
    obtain ⟨rfl, _, hend⟩ := hrest.cons_inv
    cases hend.1
    rfl
  | cons d tr' ih => exact ih _ hrest.cons_inv.2.2

/-- What a step preserves holds at the end of a run and in every state it passes. -/
theorem invariant {Inv : σ → Prop} (h : ClockedRun step P s tr s') (h0 : Inv s)
    (hstep : ∀ a i, Inv a → P i → Inv (step a i)) : Inv s' ∧ ∀ c ∈ tr, Inv c.1 :=
  ⟨h.1.invariant (P := fun _ i => P i) h0 h.2 (fun a i _ ha hi hb => hb ▸ hstep a i ha hi),
    h.1.invariant_mem (P := fun _ i => P i) h0 h.2 (fun a i _ ha hi hb => hb ▸ hstep a i ha hi)⟩

end ClockedRun

/-! ## Partial step functions -/

/-- An executed run of a partial step function is a run. -/
theorem path_of_runM {step : σ → ι → Option σ} {s s' : σ} {is : List ι}
    (h : runM step s is = some s') :
    ∃ tr, Path (fun a i b => step a i = some b) s tr s' ∧ tr.map Prod.snd = is := by
  induction is generalizing s with
  | nil =>
    cases h
    exact ⟨[], Path.nil _, rfl⟩
  | cons i is ih =>
    obtain ⟨t, ht, hrest⟩ := Option.bind_eq_some_iff.mp h
    obtain ⟨tr, hp, hm⟩ := ih hrest
    exact ⟨(s, i) :: tr, Path.cons ht hp, by rw [List.map_cons, hm]⟩

/-- The steps of an executed run, up to the first input that is not enabled. -/
def traceM (step : σ → ι → Option σ) : σ → List ι → List (σ × ι)
  | _, [] => []
  | s, i :: is =>
    match step s i with
    | some s' => (s, i) :: traceM step s' is
    | none => []

theorem path_traceM {step : σ → ι → Option σ} {s s' : σ} {is : List ι}
    (h : runM step s is = some s') :
    Path (fun a i b => step a i = some b) s (traceM step s is) s' := by
  induction is generalizing s with
  | nil =>
    cases h
    exact Path.nil _
  | cons i is ih =>
    obtain ⟨t, ht, hrest⟩ := Option.bind_eq_some_iff.mp h
    rw [traceM, ht]
    exact Path.cons ht (ih hrest)

theorem length_traceM {step : σ → ι → Option σ} {s s' : σ} {is : List ι}
    (h : runM step s is = some s') : (traceM step s is).length = is.length := by
  induction is generalizing s with
  | nil => rfl
  | cons i is ih =>
    obtain ⟨a, ha, hrest⟩ := Option.bind_eq_some_iff.mp h
    rw [traceM, ha]
    exact congrArg (· + 1) (ih hrest)

theorem snd_mem_of_traceM {step : σ → ι → Option σ} {s : σ} {is : List ι} {c : σ × ι}
    (h : c ∈ traceM step s is) : c.2 ∈ is := by
  induction is generalizing s with
  | nil => exact absurd h List.not_mem_nil
  | cons i is ih =>
    rw [traceM] at h
    split at h
    · rcases List.mem_cons.mp h with rfl | h
      · exact List.mem_cons_self
      · exact List.mem_cons_of_mem _ (ih h)
    · exact absurd h List.not_mem_nil

theorem traceM_append {step : σ → ι → Option σ} {s s' : σ} {is : List ι} (js : List ι)
    (h : runM step s is = some s') :
    traceM step s (is ++ js) = traceM step s is ++ traceM step s' js := by
  induction is generalizing s with
  | nil =>
    cases h
    rfl
  | cons i is ih =>
    obtain ⟨t, ht, hrest⟩ := Option.bind_eq_some_iff.mp h
    rw [List.cons_append, traceM, traceM, ht]
    exact congrArg _ (ih hrest)

theorem runM_append (step : σ → ι → Option σ) (s : σ) (is js : List ι) :
    runM step s (is ++ js) = (runM step s is).bind fun s' => runM step s' js := by
  induction is generalizing s with
  | nil => rfl
  | cons i is ih =>
    rw [List.cons_append, runM, runM]
    cases step s i with
    | none => rfl
    | some s' => exact ih s'

/-- From every state of `P` the inputs `is` are enabled one after another, and lead into `Q`. -/
def Leads (step : σ → ι → Option σ) (P : σ → Prop) (is : List ι) (Q : σ → Prop) : Prop :=
  ∀ s, P s → ∃ s', runM step s is = some s' ∧ Q s'

namespace Leads

variable {step : σ → ι → Option σ} {P Q R : σ → Prop} {i : ι} {is js : List ι}

theorem single (h : ∀ s, P s → ∃ s', step s i = some s' ∧ Q s') : Leads step P [i] Q := by
  intro s hs
  obtain ⟨s', hstep, hQ⟩ := h s hs
  exact ⟨s', by rw [runM, hstep]; rfl, hQ⟩

/-- Where a step from `P` leads, once it is known to be enabled. -/
theorem of_step {s s' : σ} (h : Leads step P [i] Q) (hs : P s) (hstep : step s i = some s') :
    Q s' := by
  obtain ⟨t, hrun, hQ⟩ := h s hs
  rw [runM, hstep] at hrun
  cases hrun
  exact hQ

theorem append (h : Leads step P is Q) (h' : Leads step Q js R) : Leads step P (is ++ js) R := by
  intro s hs
  obtain ⟨s', hrun, hQ⟩ := h s hs
  rw [runM_append, hrun, Option.bind_some]
  exact h' s' hQ

theorem cons (h : Leads step P [i] Q) (h' : Leads step Q is R) : Leads step P (i :: is) R :=
  append h h'

/-- What every input keeps, a run keeps. -/
theorem stay {W : ι → Prop} (hW : ∀ i ∈ is, W i) (hstay : ∀ i, W i → Leads step P [i] P) :
    Leads step P is P := by
  induction is with
  | nil => exact fun s hs => ⟨s, rfl, hs⟩
  | cons i is ih =>
    exact cons (hstay i (hW i List.mem_cons_self))
      (ih (fun j hj => hW j (List.mem_cons_of_mem _ hj)))

/-- Waiting in `P` for the first input that meets `G`, and then staying in `Q`. -/
theorem wait {W G : ι → Prop} (hW : ∀ i ∈ is, W i) (hG : ∃ i ∈ is, G i)
    (hwait : ∀ i, W i → ¬G i → Leads step P [i] P) (hgo : ∀ i, W i → G i → Leads step P [i] Q)
    (hstay : ∀ i, W i → Leads step Q [i] Q) : Leads step P is Q := by
  induction is with
  | nil =>
    obtain ⟨_, hmem, _⟩ := hG
    exact absurd hmem List.not_mem_nil
  | cons i is ih =>
    have hi := hW i List.mem_cons_self
    have hrest : ∀ j ∈ is, W j := fun j hj => hW j (List.mem_cons_of_mem _ hj)
    by_cases hgi : G i
    · exact cons (hgo i hi hgi) (stay hrest hstay)
    · refine cons (hwait i hi hgi) (ih hrest ?_)
      obtain ⟨j, hj, hgj⟩ := hG
      rcases List.mem_cons.mp hj with rfl | hj
      · exact absurd hgj hgi
      · exact ⟨j, hj, hgj⟩

end Leads

/-! ## Components -/

section Components

variable {τ κ : Type _} {R : σ → ι → σ → Prop} {get : σ → τ} {sees : ι → Option κ}
  {step : τ → κ → Option τ}

/-- A step of a component, which an input concerns or not. -/
def stutter (step : τ → κ → Option τ) (s : τ) : Option κ → Option τ
  | some k => step s k
  | none => some s

/-- What a component does in a run: `get` is its state, and `sees` what it has of an input. -/
def part (get : σ → τ) (sees : ι → Option κ) (tr : List (σ × ι)) : List (τ × κ) :=
  tr.filterMap fun c => (sees c.2).map fun k => (get c.1, k)

theorem mem_part {tr : List (σ × ι)} {c : τ × κ} (h : c ∈ part get sees tr) :
    ∃ a i, (a, i) ∈ tr ∧ sees i = some c.2 ∧ get a = c.1 := by
  obtain ⟨⟨a, i⟩, hmem, heq⟩ := List.mem_filterMap.mp h
  obtain ⟨k, hk, rfl⟩ := Option.map_eq_some_iff.mp heq
  exact ⟨a, i, hmem, hk, rfl⟩

/-- **It is a run of the component.** -/
theorem Path.part {s s' : σ} {tr : List (σ × ι)} (h : Path R s tr s')
    (hstep : ∀ a i b, R a i b → stutter step (get a) (sees i) = some (get b)) :
    Path (fun a k b => step a k = some b) (get s) (part get sees tr) (get s') := by
  induction h with
  | nil => exact nil _
  | @cons a b c i tr hR _ ih =>
    have hcomp := hstep a i b hR
    unfold Infra.part
    cases hk : sees i with
    | none =>
      rw [hk] at hcomp
      rw [List.filterMap_cons_none (by simp [hk]), Option.some.inj hcomp]
      exact ih
    | some k =>
      rw [hk] at hcomp
      rw [List.filterMap_cons_some (b := (get a, k)) (by simp [hk])]
      exact cons hcomp ih

/-- Its events are those of the system that are its own. -/
theorem events_part {ev : τ → κ → List ε} {ev' : σ → ι → List ε} {tr : List (σ × ι)}
    (h : ∀ a i, ev' a i = (sees i).elim [] (ev (get a))) :
    events ev (part get sees tr) = events ev' tr := by
  induction tr with
  | nil => rfl
  | cons c tr ih =>
    rw [events_cons, h]
    unfold part
    cases hk : sees c.2 with
    | none =>
      rw [List.filterMap_cons_none (by simp [hk])]
      exact ih
    | some k =>
      rw [List.filterMap_cons_some (b := (get c.1, k)) (by simp [hk]), events_cons]
      exact congrArg _ ih

end Components

end Infra
