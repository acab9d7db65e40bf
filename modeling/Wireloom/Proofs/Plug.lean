import Wireloom.Proofs.Net

/-!
# `Net.plug` — one net in a hole of another

A hole of a net is a region together with its slots: where a wire enters the region and where it leaves again, or where
a bit is only read. Each slot takes a wire of the net that goes in.
-/

namespace Wireloom

open Option Relation WireKind

namespace Net

variable {B : Vertex → Vertex → Prop}

/-- **A slot of a hole, with the two ends of the wire that goes in.** It has no exit if it only reads. -/
structure Slot where
  input : Vertex
  output : Vertex
  entry : Link
  exit : Option Link

variable {H G : Net} {R : Vertex → Prop} {S : Pin → Prop} {unit : Pin → UnitId} {first last : Vertex → Prop} {slots : List Slot}
  {s t : Slot} {l m x : Link} {v w : Vertex} {p : Pin} {k : WireKind}

/-- The ends of a wire that only hands on reads. -/
def Dropped (slots : List Slot) (v : Vertex) : Prop := ∃ s ∈ slots, s.exit = none ∧ (s.input = v ∨ s.output = v)

/-- Where links of `H` from a pin come from when `G` is in the hole: what left a pin of `S` at a slot now leaves the
    output of the slot's wire. -/
inductive HostSource (S : Pin → Prop) (slots : List Slot) : Pin → Pin → Prop
  | outside {p : Pin} : ¬ S p → HostSource S slots p p
  | leaving {s : Slot} {x : Link} : s ∈ slots → s.exit = some x → HostSource S slots x.source ⟨s.output, 0⟩

/-- Where links of `G` from a pin come from when it is in the hole: the readers of a wire that is dropped read what
    the slot reads. -/
inductive GuestSource (slots : List Slot) : Pin → Pin → Prop
  | inside {p : Pin} : ¬ Dropped slots p.vertex → GuestSource slots p p
  | reading {s : Slot} : s ∈ slots → s.exit = none → GuestSource slots ⟨s.input, 0⟩ s.entry.source

/-- **The links of a net in a hole.** -/
inductive PlugLink (H G : Net) (R : Vertex → Prop) (S : Pin → Prop) (slots : List Slot) : Link → Prop
  | host {l : Link} {q : Pin} : H.link l → ¬ R l.target.vertex → HostSource S slots l.source q →
      PlugLink H G R S slots ⟨q, l.target, l.kind⟩
  | guest {l : Link} {q : Pin} : G.link l → ¬ Dropped slots l.target.vertex → GuestSource slots l.source q →
      PlugLink H G R S slots ⟨q, l.target, l.kind⟩
  | entry {s : Slot} {x : Link} : s ∈ slots → s.exit = some x →
      PlugLink H G R S slots ⟨s.entry.source, ⟨s.input, 0⟩, s.entry.kind⟩

open Classical in
/-- The net `G` in a hole of `H` with interior `R`, where what leaves the pins of `S` leaves at slots. -/
noncomputable def fill (H G : Net) (R : Vertex → Prop) (S : Pin → Prop) (slots : List Slot) : Net where
  signature? v := if R v ∨ Dropped slots v then none else (H.signature? v).or (G.signature? v)
  link := PlugLink H G R S slots

/-- The net `G` in the hole of `H` with interior `R`. -/
noncomputable abbrev plug (H G : Net) (R : Vertex → Prop) (slots : List Slot) : Net :=
  fill H G R (fun p => R p.vertex) slots

/-- **The wires of `G` go into slots of `H`.** -/
structure Slotted (H G : Net) (first last : Vertex → Prop) (slots : List Slot) : Prop where
  host_fitted : H.Fitted
  host_complete : H.Complete first last
  guest_fitted : G.Fitted
  guest_complete : G.Complete (fun v => ∃ s ∈ slots, s.input = v) (fun v => ∃ s ∈ slots, s.output = v)
  disjoint : ∀ v, H.signature? v = none ∨ G.signature? v = none
  entry_link : ∀ {s}, s ∈ slots → H.link s.entry
  exit_link : ∀ {s x}, s ∈ slots → s.exit = some x → H.link x ∧ x.kind.isLinear = true ∧ x.kind = s.entry.kind
  exit_unique : ∀ {s t x y}, s ∈ slots → t ∈ slots → s.exit = some x → t.exit = some y → x.source = y.source → s = t
  signature_input : ∀ {s}, s ∈ slots → G.signature? s.input = some [s.entry.kind.carrier]
  signature_output : ∀ {s}, s ∈ slots → G.signature? s.output = some [s.entry.kind.carrier]
  input_ne_output : ∀ {s t}, s ∈ slots → t ∈ slots → s.input ≠ t.output
  input_injective : ∀ {s t}, s ∈ slots → t ∈ slots → s.input = t.input → s = t
  output_injective : ∀ {s t}, s ∈ slots → t ∈ slots → s.output = t.output → s = t

/-- **`G` is seated in the hole**: wires of `H` enter and leave it at the slots only. -/
structure Seated (H G : Net) (R : Vertex → Prop) (S : Pin → Prop) (first last : Vertex → Prop)
    (slots : List Slot) : Prop extends Slotted H G first last slots where
  inner : ∀ {v}, R v → (H.signature? v).isSome = true ∧ ¬ first v ∧ ¬ last v
  inside : ∀ {p}, R p.vertex → S p
  entry_outside : ∀ {s}, s ∈ slots → ¬ R s.entry.source.vertex
  entry_crosses : ∀ {s}, s ∈ slots → S s.entry.source ∨ R s.entry.target.vertex
  entry_injective : ∀ {s t x}, s ∈ slots → t ∈ slots → s.exit = some x → s.entry.source = t.entry.source → s = t
  exit_crosses : ∀ {s x}, s ∈ slots → s.exit = some x → S x.source ∧ ¬ R x.target.vertex
  enters : ∀ {l}, H.link l → l.kind.isLinear = true → ¬ R l.source.vertex → S l.source ∨ R l.target.vertex →
    ∃ s ∈ slots, ∃ x, s.exit = some x ∧ s.entry = l
  through : ∀ {s l}, s ∈ slots → s.exit = none → G.link l → l.kind.isLinear = true →
    (l.source.vertex = s.input ↔ l.target.vertex = s.output)

/-- **Nothing leaves the hole but at the slots.** -/
def Leaves (H : Net) (R : Vertex → Prop) (S : Pin → Prop) (slots : List Slot) : Prop :=
  ∀ {l}, H.link l → S l.source → ¬ R l.target.vertex → ∃ s ∈ slots, ∃ x, s.exit = some x ∧ l.source = x.source

/-- **`G` fits the hole.** The names of pins of both nets are those of the units of `H`. -/
structure Fits (H G : Net) (R : Vertex → Prop) (unit : Pin → UnitId) (first last : Vertex → Prop)
    (slots : List Slot) : Prop extends Seated H G R (fun p => R p.vertex) first last slots where
  host_threaded : H.Threaded unit
  guest_threaded : G.Threaded unit
  entry_inside : ∀ {s}, s ∈ slots → R s.entry.target.vertex
  read_only : ∀ {s}, s ∈ slots → s.exit = none → s.entry.kind = .boolean
  unit_input : ∀ {s}, s ∈ slots → unit ⟨s.input, 0⟩ = unit s.entry.source
  unit_output : ∀ {s}, s ∈ slots → unit ⟨s.output, 0⟩ = unit s.entry.source
  unit_exit : ∀ {s x}, s ∈ slots → s.exit = some x → unit x.source = unit s.entry.source

/-- **`G` fits the hole, and nothing leaves it but at the slots.** -/
structure Plug (H G : Net) (R : Vertex → Prop) (unit : Pin → UnitId) (first last : Vertex → Prop)
    (slots : List Slot) : Prop extends Fits H G R unit first last slots where
  leaves : H.Leaves R (fun p => R p.vertex) slots

/-! ## The two sides -/

namespace Slotted

variable (h : Slotted H G first last slots)
include h

lemma host_live (hl : H.link l) : (H.signature? l.source.vertex).isSome ∧
    (H.signature? l.target.vertex).isSome := h.host_fitted.live_of_link hl

lemma guest_live (hl : G.link l) : (G.signature? l.source.vertex).isSome ∧
    (G.signature? l.target.vertex).isSome := h.guest_fitted.live_of_link hl

lemma not_both (hH : (H.signature? v).isSome) : ¬ (G.signature? v).isSome := by
  intro hG
  rcases h.disjoint v with hv | hv
  · rw [hv] at hH; cases hH
  · rw [hv] at hG; cases hG

lemma live_input (hs : s ∈ slots) : (G.signature? s.input).isSome := by
  rw [h.signature_input hs]; rfl

lemma live_output (hs : s ∈ slots) : (G.signature? s.output).isSome := by
  rw [h.signature_output hs]; rfl

lemma live_of_dropped (hv : Dropped slots v) : (G.signature? v).isSome := by
  obtain ⟨s, hs, _, rfl | rfl⟩ := hv
  · exact h.live_input hs
  · exact h.live_output hs

lemma host_not_dropped (hv : (H.signature? v).isSome) : ¬ Dropped slots v := fun hd =>
  h.not_both hv (h.live_of_dropped hd)

lemma not_dropped_input (hs : s ∈ slots) (hx : s.exit = some x) : ¬ Dropped slots s.input := by
  rintro ⟨t, ht, htx, hti | hto⟩
  · rw [h.input_injective ht hs hti, hx] at htx
    cases htx
  · exact h.input_ne_output hs ht hto.symm

lemma not_dropped_output (hs : s ∈ slots) (hx : s.exit = some x) : ¬ Dropped slots s.output := by
  rintro ⟨t, ht, htx, hti | hto⟩
  · exact h.input_ne_output ht hs hti
  · rw [h.output_injective ht hs hto, hx] at htx
    cases htx

lemma sides_ne (hv : (H.signature? v).isSome) (hw : (G.signature? w).isSome) : v ≠ w := by
  rintro rfl
  exact h.not_both hv hw

section

variable (hs : s ∈ slots)
include hs

lemma host_source : (H.signature? s.entry.source.vertex).isSome :=
  (h.host_live (h.entry_link hs)).1

lemma host_exit (hx : s.exit = some x) : (H.signature? x.target.vertex).isSome :=
  (h.host_live (h.exit_link hs hx).1).2

lemma entry_linear (hx : s.exit = some x) : s.entry.kind.isLinear := by
  obtain ⟨_, hlin, hkind⟩ := h.exit_link hs hx
  rw [← hkind]
  exact hlin

lemma target_ne_input (hm : G.link m) : m.target.vertex ≠ s.input := fun heq =>
  h.guest_complete.target_open h.guest_fitted hm ⟨s, hs, heq.symm⟩

lemma source_ne_output (hm : G.link m) : m.source.vertex ≠ s.output := fun heq =>
  h.guest_complete.source_open hm ⟨s, hs, heq.symm⟩

lemma wireAt_input : G.wireAt ⟨s.input, 0⟩ = some s.entry.kind.carrier :=
  wireAt_of_single (h.signature_input hs)

lemma wireAt_output : G.wireAt ⟨s.output, 0⟩ = some s.entry.kind.carrier :=
  wireAt_of_single (h.signature_output hs)

end

lemma target_ne (hl : H.link l) (hm : G.link m) : l.target ≠ m.target := fun heq =>
  h.not_both (h.host_live hl).2 (heq ▸ (h.guest_live hm).2)

lemma target_ne_entry (hl : H.link l) (hs : s ∈ slots) : l.target ≠ ⟨s.input, 0⟩ := fun heq =>
  h.not_both (h.host_live hl).2 (by rw [heq]; exact h.live_input hs)

lemma not_first_guest (hv : (G.signature? v).isSome) : ¬ first v ∧ ¬ last v :=
  ⟨fun hfirst => h.not_both (h.host_complete.live_first hfirst) hv,
    fun hlast => h.not_both (h.host_complete.live_last hlast) hv⟩

end Slotted

namespace Seated

variable (h : Seated H G R S first last slots)
include h

lemma guest_outside (hv : (G.signature? v).isSome) : ¬ R v := fun hR =>
  h.not_both (h.inner hR).1 hv

lemma signature_host (hv : (H.signature? v).isSome) (hR : ¬ R v) : (fill H G R S slots).signature? v = H.signature? v :=
  (if_neg (not_or.mpr ⟨hR, h.host_not_dropped hv⟩)).trans (or_of_isSome hv)

lemma signature_guest (hv : (G.signature? v).isSome) (hd : ¬ Dropped slots v) :
    (fill H G R S slots).signature? v = G.signature? v := by
  refine (if_neg (not_or.mpr ⟨h.guest_outside hv, hd⟩)).trans ?_
  rcases h.disjoint v with hnone | hnone
  · rw [hnone, none_or]
  · rw [hnone] at hv; cases hv

lemma wireAt_host (hp : H.wireAt p = some k) (hR : ¬ R p.vertex) : (fill H G R S slots).wireAt p = some k := by
  rw [wireAt_congr (h.signature_host (signature?_of_wireAt hp) hR), hp]

lemma wireAt_guest (hp : G.wireAt p = some k) (hd : ¬ Dropped slots p.vertex) : (fill H G R S slots).wireAt p = some k := by
  rw [wireAt_congr (h.signature_guest (signature?_of_wireAt hp) hd), hp]

lemma wireAt_cases (hp : (fill H G R S slots).wireAt p = some k) :
    (H.wireAt p = some k ∧ ¬ R p.vertex) ∨ (G.wireAt p = some k ∧ ¬ Dropped slots p.vertex) := by
  have hnot : ¬ (R p.vertex ∨ Dropped slots p.vertex) := by
    intro hor
    have hsome := signature?_of_wireAt hp
    rw [show (fill H G R S slots).signature? p.vertex = none from if_pos hor] at hsome
    cases hsome
  obtain ⟨hR, hd⟩ := not_or.mp hnot
  cases hH : H.signature? p.vertex with
  | none =>
    refine .inr ⟨?_, hd⟩
    rw [← hp]
    refine (wireAt_congr ?_).symm
    exact (if_neg hnot).trans (by rw [hH, none_or])
  | some sig =>
    refine .inl ⟨?_, hR⟩
    rw [← hp]
    refine (wireAt_congr ?_).symm
    exact h.signature_host (by rw [hH]; rfl) hR

/-! ## Sources -/

variable {q q' p' : Pin}

lemma hostSource_unique (hq : HostSource S slots p q) (hq' : HostSource S slots p q') : q = q' := by
  cases hq with
  | outside hR =>
    cases hq' with
    | outside _ => rfl
    | leaving hs hx => exact absurd (h.exit_crosses hs hx).1 hR
  | leaving hs hx =>
    generalize hp : Link.source _ = p at hq'
    cases hq' with
    | outside hR => exact absurd (hp ▸ (h.exit_crosses hs hx).1) hR
    | leaving ht hy => rw [h.exit_unique hs ht hx hy hp]

lemma hostSource_injective (hp : (H.signature? p.vertex).isSome) (hp' : (H.signature? p'.vertex).isSome)
    (hq : HostSource S slots p q) (hq' : HostSource S slots p' q) : p = p' := by
  cases hq with
  | outside hR =>
    cases hq' with
    | outside _ => rfl
    | leaving hs hx => exact absurd (h.live_output hs) (h.not_both hp)
  | @leaving s x hs hx =>
    generalize hq : (⟨s.output, 0⟩ : Pin) = q at hq'
    cases hq' with
    | outside hR => exact absurd (hq ▸ h.live_output hs) (h.not_both hp')
    | leaving ht hy =>
      cases h.output_injective hs ht (congrArg Pin.vertex hq)
      rw [hx] at hy
      cases hy
      rfl

lemma wireAt_hostSource (hp : H.wireAt p = some k) (hq : HostSource S slots p q) :
    (fill H G R S slots).wireAt q = some k := by
  cases hq with
  | outside hR => exact h.wireAt_host hp (mt h.inside hR)
  | leaving hs hx =>
    obtain ⟨hxl, _, hkind⟩ := h.exit_link hs hx
    rw [h.host_fitted.source_wire hxl, hkind] at hp
    rw [← hp]
    exact h.wireAt_guest (h.wireAt_output hs) (h.not_dropped_output hs hx)

lemma guestSource_unique (hq : GuestSource slots p q) (hq' : GuestSource slots p q') : q = q' := by
  cases hq with
  | inside hd =>
    cases hq' with
    | inside _ => rfl
    | reading hs hx => exact absurd ⟨_, hs, hx, .inl rfl⟩ hd
  | @reading s hs hx =>
    generalize hp : (⟨s.input, 0⟩ : Pin) = p at hq'
    cases hq' with
    | inside hd => exact absurd ⟨s, hs, hx, .inl (congrArg Pin.vertex hp)⟩ hd
    | reading ht _ => rw [h.input_injective hs ht (congrArg Pin.vertex hp)]

lemma wireAt_guestSource (hp : G.wireAt p = some k) (hq : GuestSource slots p q) :
    (fill H G R S slots).wireAt q = some k := by
  cases hq with
  | inside hd => exact h.wireAt_guest hp hd
  | reading hs hx =>
    rw [h.wireAt_input hs] at hp
    rw [← hp]
    exact h.wireAt_host (h.host_fitted.source_wire (h.entry_link hs)) (h.entry_outside hs)

lemma guestSource_linear (hl : G.link l) (ht : ¬ Dropped slots l.target.vertex) (hlin : l.kind.isLinear)
    (hq : GuestSource slots l.source q) : q = l.source ∧ ¬ Dropped slots l.source.vertex := by
  generalize hp : l.source = p at hq
  cases hq with
  | inside hd => exact ⟨rfl, hd⟩
  | @reading s hs hx =>
    have htarget := (h.through hs hx hl hlin).mp (congrArg Pin.vertex hp)
    exact absurd ⟨s, hs, hx, .inr htarget.symm⟩ ht

lemma exists_guestSource (hl : G.link l) : ∃ q, GuestSource slots l.source q := by
  by_cases hd : Dropped slots l.source.vertex
  · obtain ⟨s, hs, hx, hin | hout⟩ := hd
    · have hpin := (pin_of_single (by rw [← hin]; exact h.signature_input hs) (h.guest_fitted.source_wire hl)).1
      rw [hpin, ← hin]
      exact ⟨_, .reading hs hx⟩
    · exact absurd hout.symm (h.source_ne_output hs hl)
  · exact ⟨_, .inside hd⟩

/-! ## Wires -/

lemma hostSource_ne (hl : H.link l) (hq : HostSource S slots l.source q) (hm : G.link m) : q ≠ m.source := by
  rintro rfl
  generalize hp : l.source = p at hq
  generalize hp' : m.source = p' at hq
  cases hq with
  | outside _ => exact h.not_both (h.host_live hl).1 (by rw [hp, ← hp']; exact (h.guest_live hm).1)
  | leaving hs _ => exact h.source_ne_output hs hm (congrArg Pin.vertex hp')

lemma hostSource_ne_entry (hl : H.link l) (ht : ¬ R l.target.vertex) (hlin : l.kind.isLinear)
    (hq : HostSource S slots l.source q) (hs : s ∈ slots) (hx : s.exit = some x) : q ≠ s.entry.source := by
  rintro rfl
  have hentry := h.entry_link hs
  generalize hp : l.source = p at hq
  generalize hp' : s.entry.source = p' at hq
  cases hq with
  | outside hR =>
    have hsame := h.host_fitted.out_unique hl hentry hlin (h.entry_linear hs hx) (hp.trans hp'.symm)
    exact (h.entry_crosses hs).elim (hp' ▸ hR) (hsame ▸ ht)
  | leaving ht _ => exact h.not_both (h.host_live hentry).1 (by rw [hp']; exact h.live_output ht)

lemma fitted : (fill H G R S slots).Fitted where
  source_wire {m} hm := by
    cases hm with
    | @host l _ hl _ hq => exact h.wireAt_hostSource (p := l.source) (h.host_fitted.source_wire hl) hq
    | @guest l _ hl _ hq => exact h.wireAt_guestSource (p := l.source) (h.guest_fitted.source_wire hl) hq
    | @entry s _ hs _ =>
      exact h.wireAt_host (p := s.entry.source) (h.host_fitted.source_wire (h.entry_link hs)) (h.entry_outside hs)
  target_wire {m} hm := by
    cases hm with
    | @host l _ hl ht _ => exact h.wireAt_host (p := l.target) (h.host_fitted.target_wire hl) ht
    | @guest l _ hl ht _ => exact h.wireAt_guest (p := l.target) (h.guest_fitted.target_wire hl) ht
    | entry hs hx =>
      have hwire := h.wireAt_input hs
      rw [carrier_eq (h.entry_linear hs hx)] at hwire
      exact h.wireAt_guest hwire (h.not_dropped_input hs hx)
  in_unique {m n} hm hn heq := by
    -- host, guest and slots have different pins, so both links are of one sort
    cases hm with
    | @host l _ hl _ hq =>
      cases hn with
      | @host l' _ hl' _ hq' =>
        have hsame : l = l' := h.host_fitted.in_unique hl hl' heq
        subst hsame
        rw [h.hostSource_unique hq hq']
      | @guest l' _ hl' _ _ => exact absurd heq (h.target_ne (l := l) (m := l') hl hl')
      | entry hs' _ => exact absurd heq (h.target_ne_entry (l := l) hl hs')
    | @guest l _ hl _ hq =>
      cases hn with
      | @host l' _ hl' _ _ => exact absurd heq.symm (h.target_ne (l := l') (m := l) hl' hl)
      | @guest l' _ hl' _ hq' =>
        have hsame : l = l' := h.guest_fitted.in_unique hl hl' heq
        subst hsame
        rw [h.guestSource_unique hq hq']
      | entry hs' _ => exact absurd (congrArg Pin.vertex heq) (h.target_ne_input (m := l) hs' hl)
    | entry hs hx =>
      cases hn with
      | @host l' _ hl' _ _ => exact absurd heq.symm (h.target_ne_entry (l := l') hl' hs)
      | @guest l' _ hl' _ _ => exact absurd (congrArg Pin.vertex heq).symm (h.target_ne_input (m := l') hs hl')
      | entry hs' _ => rw [h.input_injective hs hs' (congrArg Pin.vertex heq)]
  out_unique {m n} hm hn hml hnl heq := by
    cases hm with
    | @host l q hl ht hq =>
      cases hn with
      | @host l' q' hl' _ hq' =>
        have hqq : q = q' := heq
        subst hqq
        have hpp := h.hostSource_injective (h.host_live hl).1 (h.host_live hl').1 hq hq'
        have hsame : l = l' := h.host_fitted.out_unique hl hl' hml hnl hpp
        rw [hsame]
      | guest hl' ht' hq' =>
        have hqq := (h.guestSource_linear hl' ht' hnl hq').1
        exact absurd (heq.trans hqq) (h.hostSource_ne hl hq hl')
      | entry hs' hx' => exact absurd heq (h.hostSource_ne_entry hl ht hml hq hs' hx')
    | @guest l q hl ht hq =>
      have hq1 := (h.guestSource_linear hl ht hml hq).1
      cases hn with
      | host hl' _ hq' => exact absurd (heq.symm.trans hq1) (h.hostSource_ne hl' hq' hl)
      | @guest l' q' hl' ht' hq' =>
        have hqq : q = q' := heq
        have hq2 := (h.guestSource_linear hl' ht' hnl hq').1
        have hsame : l = l' := h.guest_fitted.out_unique hl hl' hml hnl (by rw [← hq1, ← hq2, hqq])
        rw [hqq, hsame]
      | @entry s' _ hs' _ =>
        have hqq := hq1.symm.trans heq
        exact absurd (hqq ▸ (h.guest_live hl).1) (h.not_both (h.host_source hs'))
    | @entry s _ hs hx =>
      cases hn with
      | host hl' ht' hq' => exact absurd heq.symm (h.hostSource_ne_entry hl' ht' hnl hq' hs hx)
      | @guest l' _ hl' ht' hq' =>
        have hqq := (h.guestSource_linear hl' ht' hnl hq').1.symm.trans heq.symm
        exact absurd (hqq ▸ (h.guest_live hl').1) (h.not_both (h.host_source hs))
      | entry hs' _ => rw [h.entry_injective hs hs' hx heq]

/-! ## Nothing is missing -/

lemma fed_guest (hp : G.wireAt p = some k) (hd : ¬ Dropped slots p.vertex) : (fill H G R S slots).Fed p := by
  by_cases hfirst : ∃ s ∈ slots, s.input = p.vertex
  · obtain ⟨s, hs, hin⟩ := hfirst
    have hpin := (pin_of_single (by rw [← hin]; exact h.signature_input hs) hp).1
    cases hx : s.exit with
    | none => exact absurd ⟨s, hs, hx, .inl hin⟩ hd
    | some x => exact ⟨_, .entry hs hx, by rw [hpin, ← hin]⟩
  · obtain ⟨l, hl, rfl⟩ := (h.guest_complete.fed_iff hp).mpr hfirst
    obtain ⟨q, hq⟩ := h.exists_guestSource hl
    exact ⟨_, .guest hl hd hq, rfl⟩

lemma drained_host (hp : H.wireAt p = some k) (hR : ¬ R p.vertex) : (fill H G R S slots).Drained p ↔ H.Drained p := by
  constructor
  · rintro ⟨m, hm, hlin, rfl⟩
    cases hm with
    | @host l q hl _ hq =>
      generalize hs : l.source = p at hq
      cases hq with
      | outside _ => exact ⟨l, hl, hlin, hs⟩
      | leaving hs' _ => exact absurd (h.live_output hs') (h.not_both (signature?_of_wireAt hp))
    | @guest l q hl ht hq =>
      have hq' : q = l.source := (h.guestSource_linear hl ht hlin hq).1
      exact absurd (hq' ▸ (h.guest_live hl).1) (h.not_both (signature?_of_wireAt hp))
    | entry hs _ => exact ⟨_, h.entry_link hs, hlin, rfl⟩
  · rintro ⟨l, hl, hlin, rfl⟩
    by_cases hcross : S l.source ∨ R l.target.vertex
    · obtain ⟨s, hs, x, hx, rfl⟩ := h.enters hl hlin hR hcross
      exact ⟨_, .entry hs hx, hlin, rfl⟩
    · obtain ⟨hS, ht⟩ := not_or.mp hcross
      exact ⟨_, .host hl ht (.outside hS), hlin, rfl⟩

lemma drained_guest (hp : G.wireAt p = some k) (hk : k.isLinear) (hd : ¬ Dropped slots p.vertex) :
    (fill H G R S slots).Drained p := by
  by_cases hlast : ∃ s ∈ slots, s.output = p.vertex
  · obtain ⟨s, hs, hout⟩ := hlast
    have hpin := (pin_of_single (by rw [← hout]; exact h.signature_output hs) hp).1
    cases hx : s.exit with
    | none => exact absurd ⟨s, hs, hx, .inr hout⟩ hd
    | some x =>
      obtain ⟨hxl, hxlin, _⟩ := h.exit_link hs hx
      exact ⟨_, .host hxl (h.exit_crosses hs hx).2 (.leaving hs hx), hxlin, by rw [hpin, ← hout]⟩
  · obtain ⟨l, hl, hlin, rfl⟩ := (h.guest_complete.drained_iff hp hk).mpr hlast
    refine ⟨_, .guest hl ?_ (.inside hd), hlin, rfl⟩
    rintro ⟨s, hs, hx, hin | hout⟩
    · exact h.target_ne_input hs hl hin.symm
    · exact hd ⟨s, hs, hx, .inl ((h.through hs hx hl hlin).mpr hout.symm).symm⟩

variable (hleaves : H.Leaves R S slots)
include hleaves

omit h in
lemma exists_hostSource (hl : H.link l) (ht : ¬ R l.target.vertex) : ∃ q, HostSource S slots l.source q := by
  by_cases hs : S l.source
  · obtain ⟨s, hs, x, hx, heq⟩ := hleaves hl hs ht
    rw [heq]
    exact ⟨_, .leaving hs hx⟩
  · exact ⟨_, .outside hs⟩

lemma fed_host (hp : H.wireAt p = some k) (hR : ¬ R p.vertex) : (fill H G R S slots).Fed p ↔ H.Fed p := by
  constructor
  · rintro ⟨m, hm, rfl⟩
    cases hm with
    | @host l _ hl _ _ => exact ⟨l, hl, rfl⟩
    | guest hl _ _ => exact absurd (h.guest_live hl).2 (h.not_both (signature?_of_wireAt hp))
    | entry hs _ => exact absurd (h.live_input hs) (h.not_both (signature?_of_wireAt hp))
  · rintro ⟨l, hl, rfl⟩
    obtain ⟨q, hq⟩ := exists_hostSource hleaves hl hR
    exact ⟨_, .host hl hR hq, rfl⟩

/-- **Nothing is missing in the net with the hole filled.** Its wires start and end where those of `H` do. -/
theorem complete : (fill H G R S slots).Complete first last where
  fed_iff {p k} hp := by
    rcases h.wireAt_cases hp with ⟨hp, hR⟩ | ⟨hp, hd⟩
    · rw [h.fed_host hleaves hp hR]
      exact h.host_complete.fed_iff hp
    · exact ⟨fun _ => (h.not_first_guest (signature?_of_wireAt hp)).1, fun _ => h.fed_guest hp hd⟩
  drained_iff {p k} hp hk := by
    rcases h.wireAt_cases hp with ⟨hp, hR⟩ | ⟨hp, hd⟩
    · rw [h.drained_host hp hR]
      exact h.host_complete.drained_iff hp hk
    · exact ⟨fun _ => (h.not_first_guest (signature?_of_wireAt hp)).2, fun _ => h.drained_guest hp hk hd⟩
  source_open {m} hm := by
    cases hm with
    | @host l q hl _ hq =>
      generalize hs : l.source = p at hq
      cases hq with
      | outside _ => exact hs ▸ h.host_complete.source_open hl
      | leaving hs' _ => exact (h.not_first_guest (h.live_output hs')).2
    | @guest l q hl _ hq =>
      generalize hs : l.source = p at hq
      cases hq with
      | inside _ => exact (h.not_first_guest (hs ▸ (h.guest_live hl).1)).2
      | @reading s hs' _ => exact h.host_complete.source_open (l := s.entry) (h.entry_link hs')
    | @entry s _ hs _ => exact h.host_complete.source_open (l := s.entry) (h.entry_link hs)
  first_wire {v} hv := by
    obtain ⟨k, hs, hk⟩ := h.host_complete.first_wire hv
    exact ⟨k, (h.signature_host (h.host_complete.live_first hv) fun hR => (h.inner hR).2.1 hv).trans hs, hk⟩
  last_wire {v} hv := by
    obtain ⟨k, hs, hk⟩ := h.host_complete.last_wire hv
    exact ⟨k, (h.signature_host (h.host_complete.live_last hv) fun hR => (h.inner hR).2.2 hv).trans hs, hk⟩

end Seated

namespace Fits

variable (h : Fits H G R unit first last slots)
include h

lemma entry (hs : s ∈ slots) : H.link s.entry ∧ ¬ R s.entry.source.vertex ∧ R s.entry.target.vertex :=
  ⟨h.entry_link hs, h.entry_outside hs, h.entry_inside hs⟩

lemma exit (hs : s ∈ slots) (hx : s.exit = some x) : H.link x ∧ x.kind.isLinear ∧ R x.source.vertex ∧
    ¬ R x.target.vertex ∧ x.kind = s.entry.kind ∧ unit x.source = unit s.entry.source := by
  obtain ⟨hl, hlin, hkind⟩ := h.exit_link hs hx
  obtain ⟨hin, hout⟩ := h.exit_crosses hs hx
  exact ⟨hl, hlin, hin, hout, hkind, h.unit_exit hs hx⟩

variable {q : Pin}

lemma unit_hostSource (hq : HostSource (fun p => R p.vertex) slots p q) : unit q = unit p := by
  cases hq with
  | outside _ => rfl
  | leaving hs hx => rw [h.unit_output hs, (h.exit hs hx).2.2.2.2.2]

lemma unit_guestSource (hq : GuestSource slots p q) : unit q = unit p := by
  cases hq with
  | inside _ => rfl
  | reading hs _ => exact (h.unit_input hs).symm

lemma threaded : (plug H G R slots).Threaded unit where
  toFitted := h.fitted
  same_unit {m} hm hlin := by
    cases hm with
    | host hl _ hq => exact (h.unit_hostSource hq).trans (h.host_threaded.same_unit hl hlin)
    | guest hl _ hq => exact (h.unit_guestSource hq).trans (h.guest_threaded.same_unit hl hlin)
    | entry hs _ => exact (h.unit_input hs).symm
  apart {a b} ha hb hak hbl heq := by
    cases ha with
    | @host l _ hl _ hq =>
      rw [h.unit_hostSource hq]
      cases hb with
      | @host l' _ hl' _ _ => exact h.host_threaded.apart (b := l') hl hl' hak hbl heq
      | @guest l' _ hl' _ _ => exact absurd (heq ▸ (h.guest_live hl').2) (h.not_both (h.host_live hl).2)
      | entry hs' _ => exact absurd (heq ▸ h.live_input hs') (h.not_both (h.host_live hl).2)
    | @guest l _ hl _ hq =>
      rw [h.unit_guestSource hq]
      cases hb with
      | @host l' _ hl' _ _ => exact absurd (heq ▸ (h.guest_live hl).2) (h.not_both (h.host_live hl').2)
      | @guest l' _ hl' _ _ => exact h.guest_threaded.apart (b := l') hl hl' hak hbl heq
      | entry hs' _ => exact absurd heq (h.target_ne_input (m := l) hs' hl)
    | entry hs hx => exact absurd hak (ne_boolean (h.entry_linear hs hx))

end Fits

lemma Plug.complete (h : Plug H G R unit first last slots) : (plug H G R slots).Complete first last :=
  h.toSeated.complete h.leaves

/-! ## Order -/

/-- **No path leaves the region and comes back.** -/
def Convex (B : Vertex → Vertex → Prop) (R : Vertex → Prop) : Prop :=
  ∀ {v w x}, R v → ¬ R w → B v w → Relation.ReflTransGen B w x → ¬ R x

lemma Convex.not_of_path {R : Vertex → Prop} {v w x : Vertex} (h : Convex B R) (hv : R v)
    (hvw : ReflTransGen B v w) (hw : ¬ R w) (hwx : ReflTransGen B w x) : ¬ R x := by
  induction hvw using ReflTransGen.head_induction_on with
  | refl => exact absurd hv hw
  | @head v v' hstep hpath ih =>
    by_cases hv' : R v'
    · exact ih hv'
    · exact h hv hv' hstep (hpath.trans hwx)

/-- **A rank that sets the inner vertices between what comes before the region and what comes after.** -/
structure Straddles {α : Type} [Preorder α] (B : Vertex → Vertex → Prop) (R inner : Vertex → Prop)
    (rank : Vertex → α) : Prop where
  around : ∀ {v w}, B v w → ¬ R v → ¬ R w → rank v < rank w
  before : ∀ {v w x}, B v w → ¬ R v → R w → inner x → rank v < rank x
  after : ∀ {v w x}, B v w → R v → ¬ R w → inner x → rank x < rank w

/-- **A rank that sets the inner vertices between the early ones and all others.** -/
structure Layered {α : Type} [Preorder α] (B : Vertex → Vertex → Prop) (early inner : Vertex → Prop)
    (rank : Vertex → α) : Prop where
  around : ∀ {v w}, B v w → rank v < rank w
  before : ∀ {v w x}, B v w → early v → inner x → rank v < rank x
  after : ∀ {v w x}, B v w → ¬ early w → inner x → rank x < rank w

/-- **Behind the early vertices there is room for others**, if nothing early comes after what is not. -/
theorem exists_layered {early inner : Vertex → Prop} {r : Vertex → ℕ} (rInner : Vertex → ℕ)
    (hr : ∀ v w, B v w → r v < r w) (hearly : ∀ {v w}, B v w → early w → early v)
    (hinner : ∀ v w, B v w → ¬ inner v ∧ ¬ inner w) :
    ∃ rank : Vertex → ℕ ×ₗ ℕ, Layered B early inner rank ∧ ∀ x, inner x → rank x = toLex (1, rInner x) := by
  classical
  let rank : Vertex → ℕ ×ₗ ℕ := fun v =>
    if inner v then toLex (1, rInner v) else if early v then toLex (0, r v) else toLex (2, r v)
  have hin : ∀ {x}, inner x → rank x = toLex (1, rInner x) := fun hx => if_pos hx
  have hfirst : ∀ {v}, ¬ inner v → early v → rank v = toLex (0, r v) := fun hv hl =>
    (if_neg hv).trans (if_pos hl)
  have hlast : ∀ {v}, ¬ inner v → ¬ early v → rank v = toLex (2, r v) := fun hv hl =>
    (if_neg hv).trans (if_neg hl)
  refine ⟨rank, ⟨fun {v w} hvw => ?_, fun {v w x} hvw hv hx => ?_, fun {v w x} hvw hw hx => ?_⟩, fun x => hin⟩
  · obtain ⟨hv, hw⟩ := hinner v w hvw
    by_cases hlw : early w
    · rw [hfirst hv (hearly hvw hlw), hfirst hw hlw]
      exact lt_within_class (hr v w hvw)
    · rw [hlast hw hlw]
      by_cases hlv : early v
      · rw [hfirst hv hlv]
        exact lt_of_class (by decide)
      · rw [hlast hv hlv]
        exact lt_within_class (hr v w hvw)
  · rw [hfirst (hinner v w hvw).1 hv, hin hx]
    exact lt_of_class (by decide)
  · rw [hlast (hinner v w hvw).2 hw, hin hx]
    exact lt_of_class (by decide)

/-- A path leads to one of the vertices. -/
def Leads (B : Vertex → Vertex → Prop) (R : Vertex → Prop) (v : Vertex) : Prop :=
  ∃ x, R x ∧ Relation.ReflTransGen B v x

lemma Leads.head {R : Vertex → Prop} (hvw : B v w) (hw : Leads B R w) : Leads B R v :=
  hw.imp fun _ hx => ⟨hx.1, hx.2.head hvw⟩

/-- **Around a convex region there is room for other vertices.** What leads to the region comes first, all else
    after the inner vertices. -/
theorem Layered.straddles {α : Type} [Preorder α] {R inner : Vertex → Prop} {rank : Vertex → α}
    (h : Layered B (Leads B R) inner rank) (hconvex : Convex B R) : Straddles B R inner rank where
  around hvw _ _ := h.around hvw
  before hvw _ hw hx := h.before hvw ⟨_, hw, .single hvw⟩ hx
  after hvw hv hw hx := by
    refine h.after hvw ?_ hx
    rintro ⟨y, hy, hpath⟩
    exact hconvex hv hw hvw hpath hy

/-- **A rank that sets `G` between what its slots come behind and what leaves them.** -/
structure Room {α : Type} [Preorder α] (H G : Net) (R : Vertex → Prop) (S : Pin → Prop) (slots : List Slot)
    (rank : Vertex → α) : Prop where
  around : ∀ {l}, H.link l → ¬ S l.source → ¬ R l.target.vertex → rank l.source.vertex < rank l.target.vertex
  before : ∀ {s x}, s ∈ slots → (G.signature? x).isSome = true → rank s.entry.source.vertex < rank x
  after : ∀ {l x}, H.link l → S l.source → ¬ R l.target.vertex → (G.signature? x).isSome = true → rank x < rank l.target.vertex

namespace Seated

variable {α : Type} [Preorder α] {rank : Vertex → α} (h : Seated H G R S first last slots)
include h

lemma climbs (hroom : Room H G R S slots rank) (hG : G.Climbs rank) : (fill H G R S slots).Climbs rank := by
  intro m hm
  cases hm with
  | @host l q hl ht hq =>
    generalize hsource : l.source = p at hq
    cases hq with
    | outside hS => exact hsource ▸ hroom.around hl (hsource ▸ hS) ht
    | leaving hs hx => exact hroom.after (l := l) hl (hsource ▸ (h.exit_crosses hs hx).1) ht (h.live_output hs)
  | @guest l q hl ht hq =>
    have hstep := hG l hl
    generalize hsource : l.source = p at hq hstep
    cases hq with
    | inside _ => exact hstep
    | reading hs _ => exact hroom.before hs (h.guest_live hl).2
  | entry hs _ => exact hroom.before hs (h.live_input hs)

/-- **Nothing closes a cycle through the hole**, if the hazards across its edge suit the rank as well. -/
theorem ranked (hroom : Room H G R S slots rank) (hG : G.Ranked rank)
    (haround : ∀ {v w}, H.Before v w → ¬ R v → ¬ R w → rank v < rank w)
    (hreader : ∀ {s l v}, s ∈ slots → s.entry.kind.isLinear → H.link l → l.kind = .boolean → ¬ S l.source →
      ¬ R l.target.vertex → l.source = s.entry.source → (G.signature? v).isSome → rank l.target.vertex < rank v)
    (hwriter : ∀ {s l v}, s ∈ slots → s.exit = none → H.link l → l.kind.isLinear → ¬ R l.target.vertex →
      l.source = s.entry.source → (G.signature? v).isSome → rank v < rank l.target.vertex) :
    (fill H G R S slots).Ranked rank := by
  refine .of_links (h.climbs hroom hG.climbs) fun a b ha hb hak hbl heq => ?_
  cases ha with
  | @host l q hl ht hq =>
    cases hb with
    | @host l' q' hl' ht' hq' =>
      have hqq : q = q' := heq
      subst hqq
      have hsource := h.hostSource_injective (h.host_live hl).1 (h.host_live hl').1 hq hq'
      have hhazard : H.Before l.target.vertex l'.target.vertex := .hazard hl hl' hak hbl hsource
      exact haround hhazard ht ht'
    | guest hl' ht' hq' =>
      exact absurd (heq.trans (h.guestSource_linear hl' ht' hbl hq').1) (h.hostSource_ne hl hq hl')
    | @entry s _ hs' hx' =>
      -- a reader outside and the wire that enters: the reader comes before the hole
      have hqs : q = s.entry.source := heq
      generalize hsource : l.source = p at hq
      cases hq with
      | outside hS =>
        exact hreader (l := l) hs' hbl hl hak (hsource ▸ hS) ht (hsource.trans hqs) (h.live_input hs')
      | leaving ht' _ => exact absurd (hqs ▸ h.live_output ht') (h.not_both (h.host_source hs'))
  | @guest l q hl ht hq =>
    cases hb with
    | @host l' q' hl' ht' hq' =>
      have hqq : q = q' := heq
      subst hqq
      generalize hsource : l.source = p at hq
      cases hq with
      | inside _ => exact absurd hsource.symm (h.hostSource_ne hl' hq' hl)
      | @reading s hs' hx' =>
        -- a reader that went in and the next writer outside: the writer comes after the hole
        generalize hsource' : l'.source = p' at hq'
        generalize hp : s.entry.source = p at hq'
        cases hq' with
        | outside _ => exact hwriter (l := l') hs' hx' hl' hbl ht' (hsource'.trans hp.symm) (h.guest_live hl).2
        | leaving ht' _ => exact absurd (hp ▸ h.live_output ht') (h.not_both (h.host_source hs'))
    | @guest l' q' hl' ht' hq' =>
      have hqq : q = l'.source := heq.trans (h.guestSource_linear hl' ht' hbl hq').1
      generalize hsource : l.source = p at hq
      cases hq with
      | inside _ => exact hG l.target.vertex l'.target.vertex (.hazard hl hl' hak hbl (hsource.trans hqq))
      | reading hs' _ => exact absurd (hqq ▸ (h.guest_live hl').1) (h.not_both (h.host_source hs'))
    | @entry s _ hs' hx' =>
      have hqq : q = s.entry.source := heq
      generalize hsource : l.source = p at hq
      cases hq with
      | inside _ => exact absurd (hqq ▸ hsource ▸ (h.guest_live hl).1) (h.not_both (h.host_source hs'))
      | @reading t ht' htx =>
        -- where a slot only reads, no other slot is entered
        rw [h.entry_injective hs' ht' hx' hqq.symm, htx] at hx'
        cases hx'
  | entry hs' hx' => exact absurd hak (ne_boolean (h.entry_linear hs' hx'))

end Seated

namespace Fits

variable {α : Type} [Preorder α] {rank : Vertex → α} (h : Fits H G R unit first last slots)
include h

lemma room (hB : ∀ l, H.link l → B l.source.vertex l.target.vertex)
    (hs : Straddles B R (fun v => (G.signature? v).isSome) rank) :
    Room H G R (fun p => R p.vertex) slots rank where
  around hl hS ht := hs.around (hB _ hl) hS ht
  before hs' hx := hs.before (hB _ (h.entry_link hs')) (h.entry_outside hs') (h.entry_inside hs') hx
  after hl hS ht hx := hs.after (hB _ hl) hS ht hx

/-- **Nothing closes a cycle through the hole**, if the region is convex for links and hazards. -/
theorem ranked (hs : Straddles H.Before R (fun v => (G.signature? v).isSome) rank) (hG : G.Ranked rank) :
    (plug H G R slots).Ranked rank := by
  refine h.toSeated.ranked (h.room (fun l hl => .link hl) hs) hG hs.around
    (fun {s l v} hs' hlin hl hk _ ht heq hv => ?_) fun {s l v} hs' hx hl hlin ht heq hv => ?_
  · have hhazard : H.Before l.target.vertex s.entry.target.vertex := .hazard hl (h.entry_link hs') hk hlin heq
    exact hs.before hhazard ht (h.entry_inside hs') hv
  · have hhazard : H.Before s.entry.target.vertex l.target.vertex :=
      .hazard (h.entry_link hs') hl (h.read_only hs' hx) hlin heq.symm
    exact hs.after hhazard (h.entry_inside hs') ht hv

end Fits

end Net

end Wireloom
