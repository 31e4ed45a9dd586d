import QemuHdlSim.Infra.Bytes

/-!
# Packets on a byte stream

A beat moves up to `w` bytes at once: `keep` says which lanes have one, and `last` ends a packet.
`parse` cuts a sequence of beats at the `last` ones.

* `parse_append` — the cut can be made as the beats come
* `parse_prefix` — cutting what was seen so far of packets laid end to end gives the packets that
  are through, and the beginning of the next one
-/

namespace Infra.Stream

variable {w : Nat}

/-- One transfer on `w` byte lanes. -/
structure Beat (w : Nat) where
  data : Fin w → Byte
  keep : BitVec w
  last : Bool

/-- The byte on lane `j`; zero past the last lane. -/
def Beat.lane (b : Beat w) (j : Nat) : Byte := if h : j < w then b.data ⟨j, h⟩ else 0

/-- The bytes that are kept, lowest lane first. -/
def Beat.bytes (b : Beat w) : List Byte :=
  (List.range w).filterMap fun j => if b.keep.getLsbD j then some (b.lane j) else none

/-- The bytes of a run of beats. -/
def payload (bs : List (Beat w)) : List Byte := bs.flatMap Beat.bytes

theorem payload_append (bs bs' : List (Beat w)) : payload (bs ++ bs') = payload bs ++ payload bs' :=
  List.flatMap_append

theorem payload_singleton (b : Beat w) : payload [b] = b.bytes := List.flatMap_singleton _ _

theorem payload_snoc (bs : List (Beat w)) (b : Beat w) :
    payload (bs ++ [b]) = payload bs ++ b.bytes := by rw [payload_append, payload_singleton]

/-- A beat without a byte is one that keeps no lane. -/
theorem Beat.bytes_eq_nil_iff (b : Beat w) : b.bytes = [] ↔ b.keep = 0 := by
  unfold Beat.bytes
  rw [List.filterMap_eq_nil_iff]
  constructor
  · intro h
    refine BitVec.eq_of_getLsbD_eq fun j hj => ?_
    have hnone := h j (List.mem_range.mpr hj)
    cases hbit : b.keep.getLsbD j with
    | false => exact BitVec.getLsbD_zero.symm
    | true =>
      rw [hbit] at hnone
      exact absurd hnone (by simp)
  · intro h j _
    rw [h]
    simp

/-- The packets that are through, and the beats of the one that is not. -/
structure Parsed (w : Nat) where
  packets : List (List (Beat w))
  rest : List (Beat w)

/-- One more beat. -/
def Parsed.push (s : Parsed w) (b : Beat w) : Parsed w :=
  if b.last then ⟨s.packets ++ [s.rest ++ [b]], []⟩ else ⟨s.packets, s.rest ++ [b]⟩

/-- Cuts a stream at its `last` beats. -/
def parse (bs : List (Beat w)) : Parsed w := bs.foldl Parsed.push ⟨[], []⟩

/-- `last` is on the last beat and on no other. -/
def IsPacket (bs : List (Beat w)) : Prop :=
  ∃ init b, bs = init ++ [b] ∧ b.last = true ∧ ∀ x ∈ init, x.last = false

theorem parse_append (bs bs' : List (Beat w)) :
    parse (bs ++ bs') = bs'.foldl Parsed.push (parse bs) := List.foldl_append

theorem parse_snoc (bs : List (Beat w)) (b : Beat w) : parse (bs ++ [b]) = (parse bs).push b := by
  rw [parse_append]
  rfl

/-- Beats without `last` only make the unfinished packet longer. -/
theorem foldl_push_open {bs : List (Beat w)} (h : ∀ b ∈ bs, b.last = false) (s : Parsed w) :
    bs.foldl Parsed.push s = ⟨s.packets, s.rest ++ bs⟩ := by
  induction bs generalizing s with
  | nil => simp
  | cons b bs ih =>
    have hb : s.push b = ⟨s.packets, s.rest ++ [b]⟩ := by
      unfold Parsed.push
      rw [if_neg (by simp [h b List.mem_cons_self])]
    rw [List.foldl_cons, hb, ih (fun x hx => h x (List.mem_cons_of_mem _ hx))]
    simp

/-- A whole packet. -/
theorem foldl_push_packet {bs : List (Beat w)} (h : IsPacket bs) (ps : List (List (Beat w))) :
    bs.foldl Parsed.push ⟨ps, []⟩ = ⟨ps ++ [bs], []⟩ := by
  obtain ⟨init, b, rfl, hlast, hinit⟩ := h
  rw [List.foldl_append, foldl_push_open hinit]
  simp [Parsed.push, hlast]

/-- Packets laid end to end. -/
theorem foldl_push_packets {qs : List (List (Beat w))} (h : ∀ q ∈ qs, IsPacket q)
    (ps : List (List (Beat w))) : qs.flatten.foldl Parsed.push ⟨ps, []⟩ = ⟨ps ++ qs, []⟩ := by
  induction qs generalizing ps with
  | nil => simp
  | cons q qs ih =>
    rw [List.flatten_cons, List.foldl_append, foldl_push_packet (h q List.mem_cons_self),
      ih (fun x hx => h x (List.mem_cons_of_mem _ hx))]
    simp

theorem parse_flatten {qs : List (List (Beat w))} (h : ∀ q ∈ qs, IsPacket q) :
    parse qs.flatten = ⟨qs, []⟩ := by
  have := foldl_push_packets h []
  simpa [parse] using this

/-- The beginning of a packet, short of its end, has no `last`. -/
theorem IsPacket.open_of_prefix {q bs : List (Beat w)} (h : IsPacket q) (hp : bs <+: q)
    (hne : bs ≠ q) : ∀ b ∈ bs, b.last = false := by
  obtain ⟨init, b, rfl, _, hinit⟩ := h
  have hpre : bs <+: init := by
    rcases List.prefix_concat_iff.mp hp with heq | hpre
    · exact absurd heq hne
    · exact hpre
  exact fun x hx => hinit x (hpre.subset hx)

/-- A packet that is through stays in front. -/
theorem foldl_push_cons (bs : List (Beat w)) (q : List (Beat w)) (s : Parsed w) :
    bs.foldl Parsed.push ⟨q :: s.packets, s.rest⟩
      = ⟨q :: (bs.foldl Parsed.push s).packets, (bs.foldl Parsed.push s).rest⟩ := by
  induction bs generalizing s with
  | nil => rfl
  | cons b bs ih =>
    have hb : Parsed.push ⟨q :: s.packets, s.rest⟩ b
        = ⟨q :: (s.push b).packets, (s.push b).rest⟩ := by
      cases hl : b.last <;> simp [Parsed.push, hl]
    rw [List.foldl_cons, List.foldl_cons, hb, ih]

/--
**Cutting the beginning of a stream of packets.** The packets that are through are the first ones
of the stream, and the rest is the beginning of the next one, short of its end.
-/
theorem parse_prefix {qs : List (List (Beat w))} {bs : List (Beat w)} (h : ∀ q ∈ qs, IsPacket q)
    (hp : bs <+: qs.flatten) :
    ∃ done next, qs = done ++ next ∧ (parse bs).packets = done ∧
      ((parse bs).rest = [] ∨
        ∃ q more, next = q :: more ∧ (parse bs).rest <+: q ∧ (parse bs).rest ≠ q) := by
  induction qs generalizing bs with
  | nil =>
    have hnil : bs = [] := List.prefix_nil.mp hp
    subst hnil
    exact ⟨[], [], rfl, rfl, Or.inl rfl⟩
  | cons q qs ih =>
    have hq := h q List.mem_cons_self
    have hqs : ∀ x ∈ qs, IsPacket x := fun x hx => h x (List.mem_cons_of_mem _ hx)
    rw [List.flatten_cons] at hp
    by_cases hlen : bs.length < q.length
    · -- the first packet is not through
      have hpre : bs <+: q := List.prefix_of_prefix_length_le hp (List.prefix_append _ _)
        (Nat.le_of_lt hlen)
      have hne : bs ≠ q := fun heq => by rw [heq] at hlen; exact Nat.lt_irrefl _ hlen
      have hparse : parse bs = ⟨[], bs⟩ := by
        have := foldl_push_open (hq.open_of_prefix hpre hne) ⟨[], []⟩
        simpa [parse] using this
      rw [hparse]
      exact ⟨[], q :: qs, rfl, rfl, Or.inr ⟨q, qs, rfl, hpre, hne⟩⟩
    · obtain ⟨bs', rfl⟩ : q <+: bs :=
        List.prefix_of_prefix_length_le (List.prefix_append _ _) hp (by omega)
      obtain ⟨done, next, hsplit, hdone, hrest⟩ := ih hqs ((List.prefix_append_right_inj q).mp hp)
      have hparse : parse (q ++ bs') = ⟨q :: (parse bs').packets, (parse bs').rest⟩ := by
        have hfirst : parse q = ⟨[q], []⟩ := by
          have := foldl_push_packet hq []
          simpa [parse] using this
        rw [parse_append, hfirst]
        exact foldl_push_cons bs' q ⟨[], []⟩
      rw [hparse]
      exact ⟨q :: done, next, by rw [hsplit]; rfl, by rw [hdone], hrest⟩

end Infra.Stream
