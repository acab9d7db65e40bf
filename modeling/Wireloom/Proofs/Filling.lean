import Mathlib.Data.List.Pairwise
import Wireloom.Proofs.Connecting

/-!
# `Net.IsGraft`, `Circuit.Ready` — a copied replacement fits the hole

What `checkHole` asks of a replacement, together with what a hole is, gives all that connecting the slots needs
(`slotted_of_copy`, `fits_of_copy`, `ready_of_copy`). The pins of the copies are named after the units of the host whose slots they fill.
-/

namespace Wireloom

open WireKind

namespace Net

variable {H G N : Net} {R : Vertex → Prop} {S : Pin → Prop} {unit : Pin → UnitId} {first last : Vertex → Prop} {slots : List Slot}
  {s t : Slot} {l m x : Link} {v : Vertex}

/-- A read leaves the region. -/
def LeavingRead (H : Net) (R : Vertex → Prop) (S : Pin → Prop) (l : Link) : Prop :=
  H.link l ∧ l.kind = .boolean ∧ S l.source ∧ ¬ R l.target.vertex

/-- A read of what leaves at a slot, read from the output of the slot's wire. -/
def ReadLink (reads : Link → Prop) (slots : List Slot) (m : Link) : Prop :=
  ∃ l, reads l ∧ ∃ s ∈ slots, ∃ x, s.exit = some x ∧ x.source = l.source ∧ m = ⟨⟨s.output, 0⟩, l.target, .boolean⟩

/-- The links that the connected slots replace. -/
def CrossedLink (reads : Link → Prop) (slots : List Slot) (m : Link) : Prop :=
  (∃ s ∈ slots, ∃ x, s.exit = some x ∧ (m = s.entry ∨ m = x)) ∨ reads m

/-- What is to be cut out. -/
def Waste (R : Vertex → Prop) (slots : List Slot) (v : Vertex) : Prop := R v ∨ Dropped slots v

/-- The ends of the wires that go in: where wires of the host pass them they can be spliced out. -/
def Seam (slots : List Slot) (v : Vertex) : Prop := ∃ s ∈ slots, ∃ x, s.exit = some x ∧ (s.input = v ∨ s.output = v)

/-- **`N` is `H` and `G` side by side, with the slots connected, the reads handed on and the crossed links taken
    out.** -/
structure IsGraft (N H G : Net) (reads : Link → Prop) (slots : List Slot) : Prop where
  signature : ∀ v, N.signature? v = (H.signature? v).or (G.signature? v)
  link : ∀ m, N.link m ↔
    (H.link m ∨ G.link m ∨ (∃ s ∈ slots, SlotLink G s m) ∨ ReadLink reads slots m) ∧ ¬ CrossedLink reads slots m

namespace Slotted

variable {reads : Link → Prop}

variable (h : Slotted H G first last slots)
include h

lemma waste_host (hv : (H.signature? v).isSome) : Waste R slots v ↔ R v :=
  or_iff_left (h.host_not_dropped hv)

lemma live_of_seam (hv : Seam slots v) : (G.signature? v).isSome := by
  obtain ⟨s, hs, _, _, rfl | rfl⟩ := hv
  · exact h.live_input hs
  · exact h.live_output hs

lemma not_dropped_of_seam (hv : Seam slots v) : ¬ Dropped slots v := by
  obtain ⟨s, hs, x, hx, rfl | rfl⟩ := hv
  · exact h.not_dropped_input hs hx
  · exact h.not_dropped_output hs hx

lemma host_of_crossed (hreads : ∀ {l}, reads l → H.link l) (hm : CrossedLink reads slots m) : H.link m := by
  rcases hm with ⟨s, hs, x, hx, rfl | rfl⟩ | hm
  · exact h.entry_link hs
  · exact (h.exit_link hs hx).1
  · exact hreads hm

lemma not_crossed_of_guest (hreads : ∀ {l}, reads l → H.link l)
    (hm : (G.signature? m.source.vertex).isSome ∨ (G.signature? m.target.vertex).isSome) :
    ¬ CrossedLink reads slots m := by
  intro hcross
  obtain ⟨hs, ht⟩ := h.host_live (h.host_of_crossed hreads hcross)
  exact hm.elim (h.not_both hs) (h.not_both ht)

end Slotted

namespace Seated

variable (h : Seated H G R S first last slots)
include h

lemma crossed_ends (hm : CrossedLink (H.LeavingRead R S) slots m) : S m.source ∨ R m.target.vertex := by
  rcases hm with ⟨s, hs, x, hx, rfl | rfl⟩ | hm
  · exact h.entry_crosses hs
  · exact .inl (h.exit_crosses hs hx).1
  · exact .inl hm.2.2.1

lemma crossed_of_leaving (hleaves : H.Leaves R S slots) (hm : H.link m) (hS : S m.source) (ht : ¬ R m.target.vertex) :
    CrossedLink (H.LeavingRead R S) slots m := by
  obtain ⟨s, hs, x, hx, heq⟩ := hleaves hm hS ht
  by_cases hlin : m.kind.isLinear
  · obtain ⟨hxl, hxlin, _⟩ := h.exit_link hs hx
    exact .inl ⟨s, hs, x, hx, .inr (h.host_fitted.out_unique hm hxl hlin hxlin heq)⟩
  · exact .inr ⟨hm, eq_boolean hlin, hS, ht⟩

lemma waste_guest (hv : (G.signature? v).isSome) : Waste R slots v ↔ Dropped slots v :=
  or_iff_right (h.guest_outside hv)

lemma single_of_seam (hv : Seam slots v) : (fill H G R S slots).Single v := by
  obtain ⟨s, hs, x, hx, hin | hout⟩ := hv
  · refine ⟨_, ?_, isLinear_carrier s.entry.kind⟩
    rw [← hin, h.signature_guest (h.live_input hs) (h.not_dropped_input hs hx), h.signature_input hs]
  · refine ⟨_, ?_, isLinear_carrier s.entry.kind⟩
    rw [← hout, h.signature_guest (h.live_output hs) (h.not_dropped_output hs hx), h.signature_output hs]

lemma read_target (hl : G.link l) (hk : l.kind = .boolean) (hs : s ∈ slots) : l.target.vertex ≠ s.output := by
  intro heq
  have hsig := h.signature_output hs
  rw [← heq] at hsig
  have hkind := (pin_of_single hsig (h.guest_fitted.target_wire hl)).2
  exact ne_boolean (isLinear_carrier _) (hkind.symm.trans hk)

lemma source_of_dropped (hl : G.link l) (hd : l.Touches (Dropped slots)) :
    ∃ s ∈ slots, s.exit = none ∧ l.source = ⟨s.input, 0⟩ := by
  have hpin : ∀ {s}, s ∈ slots → l.source.vertex = s.input → l.source = ⟨s.input, 0⟩ := fun {s} hs heq => by
    rw [← heq]
    exact (pin_of_single (by rw [heq]; exact h.signature_input hs) (h.guest_fitted.source_wire hl)).1
  rcases hd with ⟨s, hs, hx, hin | hout⟩ | ⟨s, hs, hx, hin | hout⟩
  · exact ⟨s, hs, hx, hpin hs hin.symm⟩
  · exact absurd hout.symm (h.source_ne_output hs hl)
  · exact absurd hin.symm (h.target_ne_input hs hl)
  · have hlin : l.kind.isLinear := by
      by_contra hlin
      exact h.read_target hl (eq_boolean hlin) hs hout.symm
    exact ⟨s, hs, hx, hpin hs ((h.through hs hx hl hlin).mpr hout.symm)⟩

lemma target_of_dropped (hl : G.link l) (hd : l.Touches (Dropped slots)) : ¬ Seam slots l.target.vertex := by
  rintro ⟨t, ht, x, hx, hin | hout⟩
  · exact h.target_ne_input ht hl hin.symm
  · obtain ⟨s, hs, hnone, hsource⟩ := h.source_of_dropped hl hd
    have hlin : l.kind.isLinear := by
      by_contra hlin
      exact h.read_target hl (eq_boolean hlin) ht hout.symm
    have htarget := (h.through hs hnone hl hlin).mp (congrArg Pin.vertex hsource)
    exact h.not_dropped_output ht hx ⟨s, hs, hnone, .inr (htarget.symm.trans hout.symm)⟩

end Seated

namespace IsGraft

variable (h : Seated H G R S first last slots) (hleaves : H.Leaves R S slots) (hN : N.IsGraft H G (H.LeavingRead R S) slots)
include h hleaves hN

lemma plugLink_of_link (hm : N.link m) (hclear : ¬ m.Touches (Waste R slots)) : PlugLink H G R S slots m := by
  obtain ⟨hsource, htarget⟩ := not_or.mp hclear
  obtain ⟨hcases, hcross⟩ := (hN.link m).mp hm
  rcases hcases with hm | hm | ⟨s, hs, hm⟩ | ⟨l, hl, s, hs, x, hx, heq, rfl⟩
  · rw [h.waste_host (h.host_live hm).2] at htarget
    exact .host hm htarget (.outside fun hS => hcross (h.crossed_of_leaving hleaves hm hS htarget))
  · rw [h.waste_guest (h.guest_live hm).1] at hsource
    rw [h.waste_guest (h.guest_live hm).2] at htarget
    exact .guest hm htarget (.inside hsource)
  · cases hm with
    | entry hx => exact .entry hs hx
    | @exit x hx =>
      obtain ⟨hxl, _, hkind⟩ := h.exit_link hs hx
      rw [← hkind]
      exact .host hxl (h.exit_crosses hs hx).2 (.leaving hs hx)
    | @read l hnone hl hsource' hk =>
      rw [h.waste_guest (h.guest_live hl).2] at htarget
      rw [← hk]
      exact .guest hl htarget (hsource' ▸ .reading hs hnone)
  · obtain ⟨hlink, hk, _, hout⟩ := hl
    rw [← hk]
    exact .host hlink hout (heq ▸ .leaving hs hx)

omit hleaves in
lemma link_of_plugLink (hm : PlugLink H G R S slots m) : N.link m ∧ ¬ m.Touches (Waste R slots) := by
  cases hm with
  | @host l q hl ht hq =>
    have htarget : ¬ Waste R slots l.target.vertex := by rwa [h.waste_host (h.host_live hl).2]
    generalize hsource : l.source = p at hq
    cases hq with
    | outside hS =>
      have hm : (⟨q, l.target, l.kind⟩ : Link) = l := by rw [← hsource]
      rw [hm]
      refine ⟨(hN.link l).mpr ⟨.inl hl, fun hcross => ?_⟩, not_or.mpr ⟨?_, htarget⟩⟩
      · exact (h.crossed_ends hcross).elim (fun hs => hS (hsource ▸ hs)) ht
      · rw [h.waste_host (h.host_live hl).1, hsource]
        exact mt h.inside hS
    | @leaving s x hs hx =>
      -- what started where the exit does starts at the copied output now
      have houtput := h.live_output hs
      refine ⟨(hN.link _).mpr ⟨.inr (.inr ?_), h.not_crossed_of_guest And.left (.inl houtput)⟩, not_or.mpr ⟨?_, htarget⟩⟩
      · obtain ⟨hxl, hxlin, hkind⟩ := h.exit_link hs hx
        by_cases hlin : l.kind.isLinear
        · have hlx := h.host_fitted.out_unique hl hxl hlin hxlin hsource
          rw [hlx, hkind]
          exact .inl ⟨s, hs, .exit hx⟩
        · have hk := eq_boolean hlin
          rw [hk]
          exact .inr ⟨l, ⟨hl, hk, hsource ▸ (h.exit_crosses hs hx).1, ht⟩, s, hs, x, hx, hsource.symm, rfl⟩
      · rw [h.waste_guest houtput]
        exact h.not_dropped_output hs hx
  | @guest l q hl ht hq =>
    have hlive := (h.guest_live hl).2
    have htarget : ¬ Waste R slots l.target.vertex := by rwa [h.waste_guest hlive]
    refine ⟨(hN.link _).mpr ⟨.inr ?_, h.not_crossed_of_guest And.left (.inr hlive)⟩, not_or.mpr ⟨?_, htarget⟩⟩
    · by_cases hlin : l.kind.isLinear
      · rw [(h.guestSource_linear hl ht hlin hq).1]
        exact .inl hl
      · generalize hsource : l.source = p at hq
        cases hq with
        | inside _ => rw [← hsource]; exact .inl hl
        | @reading s hs hx =>
          -- the read of a copied input reads what comes in at the slot
          have hk := eq_boolean hlin
          rw [hk]
          exact .inr (.inl ⟨s, hs, .read hx hl hsource hk⟩)
    · generalize hsource : l.source = p at hq
      cases hq with
      | inside hd => rwa [h.waste_guest (hsource ▸ (h.guest_live hl).1)]
      | @reading s hs hx =>
        rw [h.waste_host (h.host_source hs)]
        exact h.entry_outside hs
  | @entry s x hs hx =>
    have hinput := h.live_input hs
    refine ⟨(hN.link _).mpr ⟨.inr (.inr (.inl ⟨s, hs, .entry hx⟩)), h.not_crossed_of_guest And.left (.inr hinput)⟩,
      not_or.mpr ⟨?_, ?_⟩⟩
    · rw [h.waste_host (h.host_source hs)]
      exact h.entry_outside hs
    · rw [h.waste_guest hinput]
      exact h.not_dropped_input hs hx

lemma off_eq : N.off (Waste R slots) = fill H G R S slots := by
  refine Net.ext (fun v => ?_) fun m => ⟨fun ⟨hm, hclear⟩ => plugLink_of_link h hleaves hN hm hclear, link_of_plugLink h hN⟩
  by_cases hv : Waste R slots v
  · rw [signature_off_of_mem hv]
    exact (if_pos hv).symm
  · rw [signature_off_of_not_mem hv, hN.signature]
    exact (if_neg hv).symm

lemma link_of_waste (hm : N.link m) (hwaste : m.Touches (Waste R slots)) :
    (H.link m ∧ R m.target.vertex) ∨ (G.link m ∧ m.Touches (Dropped slots)) := by
  obtain ⟨hcases, hcross⟩ := (hN.link m).mp hm
  -- the new links lead from what stays to what stays
  have hnew : ¬ PlugLink H G R S slots m := fun hplug => (link_of_plugLink h hN hplug).2 hwaste
  rcases hcases with hm | hm | ⟨s, hs, hm⟩ | ⟨l, hl, s, hs, x, hx, heq, rfl⟩
  · refine .inl ⟨hm, ?_⟩
    by_contra hout
    have hin : R m.source.vertex := by
      rcases hwaste with hw | hw
      · exact (h.waste_host (h.host_live hm).1).mp hw
      · exact absurd ((h.waste_host (h.host_live hm).2).mp hw) hout
    exact hcross (h.crossed_of_leaving hleaves hm (h.inside hin) hout)
  · refine .inr ⟨hm, ?_⟩
    rcases hwaste with hw | hw
    · exact .inl ((h.waste_guest (h.guest_live hm).1).mp hw)
    · exact .inr ((h.waste_guest (h.guest_live hm).2).mp hw)
  · exfalso
    cases hm with
    | entry hx => exact hnew (.entry hs hx)
    | @exit x hx =>
      obtain ⟨hxl, _, hkind⟩ := h.exit_link hs hx
      exact hnew (hkind ▸ .host hxl (h.exit_crosses hs hx).2 (.leaving hs hx))
    | @read l hnone hl hsource hk =>
      have hd : Dropped slots l.target.vertex := by
        by_contra hd
        exact hnew (hk ▸ .guest hl hd (hsource ▸ .reading hs hnone))
      obtain ⟨t, ht, _, hin | hout⟩ := hd
      · exact h.target_ne_input ht hl hin.symm
      · exact h.read_target hl hk ht hout.symm
  · obtain ⟨hlink, hk, _, hout⟩ := hl
    exact absurd (.host hlink hout (heq ▸ .leaving hs hx)) (hk ▸ hnew)

lemma aside (hH : ∀ {l}, H.link l → l.source.vertex ≠ l.target.vertex)
    (hG : ∀ {l}, G.link l → l.source.vertex ≠ l.target.vertex) : N.Aside (Waste R slots) (Seam slots) where
  ends {l} hl hwaste hseam := by
    rcases link_of_waste h hleaves hN hl hwaste with ⟨hl, _⟩ | ⟨hl, hd⟩
    · exact hseam.elim (fun hs => h.not_both (h.host_live hl).1 (h.live_of_seam hs))
        fun hs => h.not_both (h.host_live hl).2 (h.live_of_seam hs)
    · obtain ⟨s, hs, hnone, hsource⟩ := h.source_of_dropped hl hd
      rcases hseam with hseam | hseam
      · exact h.not_dropped_of_seam hseam ⟨s, hs, hnone, .inl (congrArg Pin.vertex hsource).symm⟩
      · exact h.target_of_dropped hl hd hseam
  beyond {l b} hl hwaste hb heq hseam := by
    have hlive := h.live_of_seam hseam
    rcases link_of_waste h hleaves hN hl hwaste with ⟨hl, hR⟩ | ⟨hl, hd⟩
    · rcases link_of_waste h hleaves hN hb (.inr (.inl (heq ▸ hR))) with ⟨hb, _⟩ | ⟨hb, _⟩
      · exact h.not_both (h.host_live hb).1 hlive
      · exact h.not_both (h.inner hR).1 (heq ▸ (h.guest_live hb).2)
    · obtain ⟨s, hs, hnone, hsource⟩ := h.source_of_dropped hl hd
      by_cases hbwaste : b.Touches (Waste R slots)
      · rcases link_of_waste h hleaves hN hb hbwaste with ⟨hb, _⟩ | ⟨hb, _⟩
        · exact h.not_both (h.host_live hb).1 hlive
        · rw [h.guest_fitted.in_unique hb hl heq, hsource] at hseam
          exact h.not_dropped_of_seam hseam ⟨s, hs, hnone, .inl rfl⟩
      · -- in the filled net the pin is fed by what the slot reads
        have hd' : ¬ Dropped slots l.target.vertex := fun hd' => hbwaste (.inr (.inr (heq ▸ hd')))
        have hread : PlugLink H G R S slots ⟨s.entry.source, l.target, l.kind⟩ :=
          .guest hl hd' (hsource ▸ .reading hs hnone)
        have hsame := h.fitted.in_unique (plugLink_of_link h hleaves hN hb hbwaste) hread heq
        rw [hsame] at hlive
        exact h.not_both (h.host_source hs) hlive
  no_loop {l} hl hwaste := by
    rcases link_of_waste h hleaves hN hl hwaste with ⟨hl, _⟩ | ⟨hl, _⟩
    · exact hH hl
    · exact hG hl

end IsGraft

/-! # `Net.cut` — one net across wires of another -/

open Option

/-- A pin before the cut. -/
def CutPin (slots : List Slot) (p : Pin) : Prop := ∃ s ∈ slots, s.entry.source = p

/-- The net `G` across the wires of `H` that enter the slots. -/
noncomputable abbrev cut (H G : Net) (slots : List Slot) : Net := fill H G (fun _ => False) (CutPin slots) slots

/-- **The wires of `G` go across wires of `H`**: each slot is left along the link that enters it. -/
structure Across (H G : Net) (first last : Vertex → Prop) (slots : List Slot) : Prop
    extends Slotted H G first last slots where
  exit_eq : ∀ {s}, s ∈ slots → s.exit = some s.entry

/-- A read of a pin before the cut. -/
abbrev CutRead (H : Net) (slots : List Slot) (l : Link) : Prop := H.LeavingRead (fun _ => False) (CutPin slots) l

namespace Across

variable {α : Type}

variable (h : Across H G first last slots)
include h

/-! ## Places of the cut -/

lemma linear (hs : s ∈ slots) : s.entry.kind.isLinear := h.entry_linear hs (h.exit_eq hs)

lemma exit_ne_none (hs : s ∈ slots) : s.exit ≠ none := by
  rw [h.exit_eq hs]
  exact some_ne_none _

lemma not_dropped (v : Vertex) : ¬ Dropped slots v := fun ⟨_, hs, hnone, _⟩ => h.exit_ne_none hs hnone

lemma eq_entry (hs : s ∈ slots) (hl : H.link l) (hlin : l.kind.isLinear) (heq : l.source = s.entry.source) :
    l = s.entry := h.host_fitted.out_unique hl (h.entry_link hs) hlin (h.linear hs) heq

lemma seated : Seated H G (fun _ => False) (CutPin slots) first last slots where
  toSlotted := h.toSlotted
  inner := False.elim
  inside := False.elim
  entry_outside _ := id
  entry_crosses hs := .inl ⟨_, hs, rfl⟩
  entry_injective hs ht _ heq := h.exit_unique hs ht (h.exit_eq hs) (h.exit_eq ht) heq
  exit_crosses hs hx := ⟨⟨_, hs, by rw [mem_unique (h.exit_eq hs) hx]⟩, id⟩
  enters hl hlin _ hcross := by
    obtain ⟨s, hs, heq⟩ := hcross.resolve_right id
    exact ⟨s, hs, _, h.exit_eq hs, (h.eq_entry hs hl hlin heq.symm).symm⟩
  through hs hnone := absurd hnone (h.exit_ne_none hs)

lemma leaves : H.Leaves (fun _ => False) (CutPin slots) slots := by
  rintro l _ ⟨s, hs, heq⟩ _
  exact ⟨s, hs, _, h.exit_eq hs, heq.symm⟩

/-! ## Wires and order -/

/-- **Wires run through the cut**, if names and ranks of the wires that go in suit the places of the cut. -/
theorem strung [Preorder α] {rank : Pin → α} (hunitH : ∀ {l}, H.link l → l.kind.isLinear → unit l.source = unit l.target)
    (hunitG : ∀ {l}, G.link l → l.kind.isLinear → unit l.source = unit l.target)
    (hunit : ∀ {s}, s ∈ slots → unit ⟨s.input, 0⟩ = unit s.entry.source ∧ unit ⟨s.output, 0⟩ = unit s.entry.source)
    (hrankH : ∀ {l}, H.link l → l.kind.isLinear → rank l.source < rank l.target)
    (hrankG : ∀ {l}, G.link l → l.kind.isLinear → rank l.source < rank l.target)
    (hrank : ∀ {s}, s ∈ slots → rank s.entry.source < rank ⟨s.input, 0⟩ ∧ rank ⟨s.output, 0⟩ < rank s.entry.target) :
    (cut H G slots).Strung unit first last rank := by
  -- a linear link is one of either net, or it enters or leaves a slot
  have hcases : ∀ {m}, (cut H G slots).link m → m.kind.isLinear → H.link m ∨ G.link m ∨
      ∃ s ∈ slots, (m.source = s.entry.source ∧ m.target = ⟨s.input, 0⟩) ∨
        (m.source = ⟨s.output, 0⟩ ∧ m.target = s.entry.target) := by
    intro m hm hlin
    cases hm with
    | @host l q hl _ hq =>
      generalize hsource : l.source = p at hq
      cases hq with
      | outside _ => exact .inl (hsource ▸ hl)
      | leaving hs hx =>
        cases mem_unique (h.exit_eq hs) hx
        have hentry := h.eq_entry hs hl hlin hsource
        exact .inr (.inr ⟨_, hs, .inr ⟨rfl, by rw [hentry]⟩⟩)
    | @guest l q hl ht hq =>
      obtain ⟨rfl, _⟩ := h.seated.guestSource_linear hl ht hlin hq
      exact .inr (.inl hl)
    | entry hs _ => exact .inr (.inr ⟨_, hs, .inl ⟨rfl, rfl⟩⟩)
  refine ⟨h.seated.fitted, h.seated.complete h.leaves, fun hm hlin => ?_, fun hm hlin => ?_⟩
  · rcases hcases hm hlin with hm | hm | ⟨s, hs, ⟨hsource, htarget⟩ | ⟨hsource, htarget⟩⟩
    · exact hunitH hm hlin
    · exact hunitG hm hlin
    · rw [hsource, htarget, (hunit hs).1]
    · rw [hsource, htarget, (hunit hs).2]
      exact hunitH (h.entry_link hs) (h.linear hs)
  · rcases hcases hm hlin with hm | hm | ⟨s, hs, ⟨hsource, htarget⟩ | ⟨hsource, htarget⟩⟩
    · exact hrankH hm hlin
    · exact hrankG hm hlin
    · rw [hsource, htarget]
      exact (hrank hs).1
    · rw [hsource, htarget]
      exact (hrank hs).2

/-- **Nothing closes a cycle through the cut**, if what leaves a cut pin leads to nothing that comes before one. -/
theorem ranked [Preorder α] {rank : Vertex → α} {early : Vertex → Prop}
    (hlayered : Layered H.Before early (fun v => (G.signature? v).isSome) rank) (hG : G.Ranked rank)
    (hsource : ∀ {s}, s ∈ slots → early s.entry.source.vertex)
    (htarget : ∀ {s l}, s ∈ slots → H.link l → l.source = s.entry.source → ¬ early l.target.vertex) :
    (cut H G slots).Ranked rank := by
  have hroom : Room H G (fun _ => False) (CutPin slots) slots rank := by
    refine ⟨fun hl _ _ => hlayered.around (.link hl), fun {s x} hs hx => ?_, ?_⟩
    · have hbefore : H.Before s.entry.source.vertex s.entry.target.vertex := .link (h.entry_link hs)
      exact hlayered.before hbefore (hsource hs) hx
    · rintro l x hl ⟨s, hs, heq⟩ _ hx
      have hbefore : H.Before l.source.vertex l.target.vertex := .link hl
      exact hlayered.after hbefore (htarget hs hl heq.symm) hx
  -- readers of a pin before the cut have gone behind it, with the wire
  exact h.seated.ranked hroom hG (fun hvw _ _ => hlayered.around hvw)
    (fun hs _ _ _ hS _ heq _ => absurd ⟨_, hs, heq.symm⟩ hS) fun hs hnone => absurd hnone (h.exit_ne_none hs)

/-- **A host with a cut connected is the net across its wires**: nothing has to be taken out. -/
theorem eq_cut (hN : N.IsGraft H G (H.CutRead slots) slots) : N = cut H G slots := by
  have hoff := IsGraft.off_eq h.seated h.leaves hN
  rwa [off_of_empty fun v hv => hv.elim id (h.not_dropped v)] at hoff

end Across

end Net

/-! # `Circuit.Ready` -/

lemma WireKind.carrier_eq_wire (k : WireKind) : k.carrier = k.unitKind.wire := by cases k <;> rfl

lemma exists_fun_of_nodup {α κ β : Type} [Nonempty β] (key : α → κ) (value : α → β) {l : List α}
    (hn : (l.map key).Nodup) : ∃ f : κ → β, ∀ x ∈ l, f (key x) = value x := by
  classical
  refine ⟨fun k => if h : ∃ x ∈ l, key x = k then value h.choose else Classical.arbitrary β, fun x hx => ?_⟩
  have hex : ∃ y ∈ l, key y = key x := ⟨x, hx, rfl⟩
  dsimp only
  rw [dif_pos hex, List.inj_on_of_nodup_map hn hex.choose_spec.1 hx hex.choose_spec.2]

namespace Circuit

open Wireloom.Graph Net SortedMap List Option

variable {c r : Circuit} {unit unitG : Pin → UnitId} {hole : Hole} {x y : Filling} {g : Graph} {ι : Vertex → Vertex} {a : Unit}
  {keepNames : Bool}

/-! ## Checks -/

lemma checkSlot_eq_ok (hr : r.graph.Valid) (h : checkSlot c r x = .ok a) :
    ∃ l, c.graph.edges.get? x.2.1 = some l ∧ l.kind.unitKind = x.1.1.kind ∧ l.kind.isLinear = x.2.2.isSome ∧
      (l.kind = .boolean → ∃ m, r.graph.HasLink m ∧ m.kind.isLinear ∧ m.source = ⟨x.1.2.input, 0⟩ ∧
        m.target.vertex = x.1.2.output) := by
  obtain ⟨⟨u, _⟩, _, _⟩ := x
  obtain ⟨l, hl, h⟩ := bind_ok_iff.mp h
  refine ⟨l, link_eq_ok.mp hl, ?_⟩
  dsimp only at h
  split at h
  · cases h
  · next hkind =>
    rw [Bool.or_eq_true, not_or, decide_eq_true_eq, decide_eq_true_eq, not_not, not_not] at hkind
    refine ⟨hkind.1, hkind.2, fun hbool => ?_⟩
    rw [if_pos hbool] at h
    obtain ⟨⟨e, m⟩, hm, h⟩ := bind_ok_iff.mp h
    obtain ⟨hget, hsource, hlin⟩ := linkOut_eq_ok hr hm
    split at h
    · cases h
    · next htarget => exact ⟨m, ⟨e, hget⟩, hlin, hsource, not_not.mp htarget⟩

/-- **What a replacement has to be to fit a hole.** -/
structure Suits (c r : Circuit) (hole : Hole) : Prop where
  simple : r.isSimple = true
  length_eq : hole.entries.length = hole.exits.length
  size_eq : r.boundary.size = hole.entries.length
  convex : Net.Convex c.Linked fun v => hole.interior.contains v = true
  slot : ∀ {x}, x ∈ r.slots hole → ∃ l, c.graph.edges.get? x.2.1 = some l ∧ l.kind.unitKind = x.1.1.kind ∧
    l.kind.isLinear = x.2.2.isSome ∧ (l.kind = .boolean → ∃ m, r.graph.HasLink m ∧ m.kind.isLinear = true ∧
      m.source = ⟨x.1.2.input, 0⟩ ∧ m.target.vertex = x.1.2.output)

lemma checkHole_eq_ok (hc : c.graph.Valid) (hr : r.graph.Valid) (h : c.checkHole r hole = .ok a) : c.Suits r hole := by
  unfold checkHole at h
  split at h
  · cases h
  · next hsimple =>
    split at h
    · cases h
    · next hlength =>
      obtain ⟨_, hconvex, h⟩ := bind_ok_iff.mp h
      obtain ⟨hlength, hsize⟩ := not_or.mp hlength
      exact ⟨by simpa using hsimple, not_not.mp hlength, not_not.mp hsize, checkConvex_eq_ok hc hconvex,
        fun hx => checkSlot_eq_ok hr (except_forM_eq_ok.mp h _ hx)⟩

lemma checkSlot_of_link (hr : r.Wired unitG) {l : Link} (hl : c.graph.edges.get? x.2.1 = some l)
    (hkind : l.kind.unitKind = x.1.1.kind) (hlin : l.kind.isLinear = x.2.2.isSome)
    (hthrough : l.kind = .boolean → ∃ m, r.graph.HasLink m ∧ m.kind.isLinear ∧ m.source = ⟨x.1.2.input, 0⟩ ∧
      m.target.vertex = x.1.2.output) : checkSlot c r x = .ok () := by
  obtain ⟨⟨u, ends⟩, _, _⟩ := x
  refine except_bind_ok (link_eq_ok.mpr hl) ?_
  rw [if_neg (by rw [hkind, hlin]; simp)]
  by_cases hbool : l.kind = .boolean
  · obtain ⟨m, hm, hmlin, hms, hmt⟩ := hthrough hbool
    obtain ⟨e, hout, _⟩ := linkOut_of_unique hr.valid hm hmlin fun m' hm' hs hlin' =>
      hr.threaded.out_unique hm' hm hlin' hmlin hs
    rw [hms] at hout
    rw [if_pos hbool, hout]
    show (if m.target.vertex ≠ ends.output then _ else _) = _
    rw [if_neg (not_not.mpr hmt)]
  · rw [if_neg hbool]

lemma Suits.checkHole_eq (h : c.Suits r hole) (hc : c.graph.Valid) (hr : r.Wired unitG)
    (hlive : ∀ {v}, hole.interior.contains v → c.graph.Live v) : c.checkHole r hole = .ok () := by
  unfold checkHole
  rw [if_neg (by rw [h.simple]; decide), if_neg (not_or.mpr ⟨not_not.mpr h.length_eq, not_not.mpr h.size_eq⟩)]
  refine except_bind_ok (checkConvex_of_convex hc hlive h.convex) (except_forM_eq_ok.mpr fun x hx => ?_)
  obtain ⟨l, hl, hkind, hlin, hthrough⟩ := h.slot hx
  exact checkSlot_of_link hr hl hkind hlin hthrough

/-! ## The units of the replacement and the slots that they fill -/

lemma mem_slots (hx : x ∈ r.slots hole) : r.boundary.get? x.1.1 = some x.1.2 ∧ x.2 ∈ hole.entries.zip hole.exits := by
  obtain ⟨hu, hslot⟩ := of_mem_zip hx
  exact ⟨get?_iff_mem.mpr hu, hslot⟩

section

variable (h : c.Suits r hole)
include h

lemma Suits.map_fst : (r.slots hole).map Prod.fst = r.boundary.entries := by
  refine map_fst_zip ?_
  rw [length_zip, ← h.length_eq, Nat.min_self, ← h.size_eq]
  exact le_refl _

lemma Suits.map_snd : (r.slots hole).map Prod.snd = hole.entries.zip hole.exits := by
  refine map_snd_zip ?_
  rw [length_zip, ← h.length_eq, Nat.min_self, ← h.size_eq]
  exact le_refl _

lemma Suits.exists_slot_of_unit {u : UnitId} {ends : Ends} (hu : r.boundary.get? u = some ends) :
    ∃ slot, ((u, ends), slot) ∈ r.slots hole := by
  have hmem : (u, ends) ∈ (r.slots hole).map Prod.fst := by
    rw [h.map_fst]
    exact get?_iff_mem.mp hu
  obtain ⟨⟨_, slot⟩, hx, rfl⟩ := mem_map.mp hmem
  exact ⟨slot, hx⟩

lemma Suits.exists_unit_of_slot {slot : Edge × Option Edge} (hslot : slot ∈ hole.entries.zip hole.exits)
    : ∃ u ends, ((u, ends), slot) ∈ r.slots hole := by
  rw [← h.map_snd] at hslot
  obtain ⟨⟨⟨u, ends⟩, _⟩, hx, rfl⟩ := mem_map.mp hslot
  exact ⟨u, ends, hx⟩

lemma Suits.nodup_units : ((r.slots hole).map fun x => x.1.1).Nodup := by
  have hkeys := nodup_keys r.boundary
  rw [← h.map_fst, List.map_map] at hkeys
  exact hkeys

lemma Suits.eq_of_unit (hx : x ∈ r.slots hole) (hy : y ∈ r.slots hole) (heq : x.1.1 = y.1.1) : x = y :=
  inj_on_of_nodup_map h.nodup_units hx hy heq

end

lemma IsHole.unit_ne_of_slot (h : c.IsHole unit hole) (hsuits : c.Suits r hole) (hx : x ∈ r.slots hole)
    (hy : y ∈ r.slots hole) (hne : x ≠ y) {l m : Link} (hl : c.graph.edges.get? x.2.1 = some l)
    (hm : c.graph.edges.get? y.2.1 = some m) (hsome : x.2.2.isSome ∨ y.2.2.isSome) :
    unit l.source ≠ unit m.source := by
  have hdistinct := h.distinct
  rw [← hsuits.map_snd, pairwise_map] at hdistinct
  exact hdistinct.forall hx hy hne l m hl hm hsome

lemma Wired.onWire_of_through (h : c.Wired unit) {u : UnitId} {ends : Ends} (hu : c.boundary.get? u = some ends)
    {m : Link} (hm : c.graph.HasLink m) (hlin : m.kind.isLinear) (hsource : m.source = ⟨ends.input, 0⟩)
    (htarget : m.target.vertex = ends.output) {p : Pin} (hp : c.OnWire u p) :
    p = ⟨ends.input, 0⟩ ∨ p = ⟨ends.output, 0⟩ := by
  obtain ⟨_, hu', hpath⟩ := hp
  cases mem_unique hu hu'
  rcases Relation.ReflTransGen.cases_head hpath with heq | ⟨q, hq, hrest⟩
  · exact .inl heq.symm
  · right
    have hqm : q = m.target := h.threaded.joined_right_unique hq (hsource ▸ joined_of_link hm hlin)
    have hout : m.target = ⟨ends.output, 0⟩ := by
      have hsig := h.signature_output hu
      rw [← htarget] at hsig ⊢
      exact (pin_of_single hsig (h.threaded.target_wire hm)).1
    rcases Relation.ReflTransGen.cases_head hrest with heq | ⟨q', ⟨k, _, hl⟩, _⟩
    · rw [← heq, hqm, hout]
    · exact absurd ⟨u, ends, hu, by rw [hqm, hout]⟩ (h.complete.source_open hl)

/-! ## Names for the copied pins -/

/-- The net of the copies of a replacement. -/
def copiedNet (c r : Circuit) (g : Graph) (ι : Vertex → Vertex) : Net :=
  copyNet c.graph g fun m => ∃ l, r.graph.HasLink l ∧ m = l.map ι

lemma exists_labels {β : Type} [Nonempty β] (hr : r.Wired unitG) (hsuits : c.Suits r hole)
    (hcopy : IsCopy c.graph r.graph g ι keepNames) (label : Pin → β) :
    ∃ (label' : Pin → β) (f : UnitId → β), (∀ p, c.graph.Live p.vertex → label' p = label p) ∧
      (∀ p, r.graph.Live p.vertex → label' (p.map ι) = f (unitG p)) ∧
      (∀ {x l}, x ∈ r.slots hole → c.graph.edges.get? x.2.1 = some l → f x.1.1 = label l.source) ∧
      ∀ {x l}, x ∈ r.slots hole → c.graph.edges.get? x.2.1 = some l →
        label' ⟨ι x.1.2.input, 0⟩ = label l.source ∧ label' ⟨ι x.1.2.output, 0⟩ = label l.source := by
  classical
  obtain ⟨κ, hκ⟩ := hcopy.toHosts.exists_inverse
  obtain ⟨f, hf⟩ := exists_fun_of_nodup (fun x : Filling => x.1.1) (fun x => label (slotOf c.graph ι x).entry.source)
    hsuits.nodup_units
  have hentry : ∀ {x l}, x ∈ r.slots hole → c.graph.edges.get? x.2.1 = some l → f x.1.1 = label l.source := by
    intro x l hx hl
    have heq := hf x hx
    dsimp only [slotOf] at heq
    rw [hl] at heq
    exact heq
  let label' : Pin → β := fun p => if c.graph.Live p.vertex then label p else f (unitG (p.map κ))
  have hlabel : ∀ p, r.graph.Live p.vertex → label' (p.map ι) = f (unitG p) := by
    intro p hp
    refine (if_neg (hcopy.toHosts.not_live hp)).trans ?_
    show f (unitG ⟨κ (ι p.vertex), p.index⟩) = _
    rw [hκ _ hp]
  refine ⟨label', f, fun p hp => if_pos hp, hlabel, hentry, fun {x l} hx hl => ?_⟩
  obtain ⟨hu, _⟩ := mem_slots hx
  refine ⟨(hlabel ⟨x.1.2.input, 0⟩ (hr.live_input hu)).trans ?_, (hlabel ⟨x.1.2.output, 0⟩ (hr.live_output hu)).trans ?_⟩
  · rw [hr.unit_input hu]
    exact hentry hx hl
  · rw [hr.unit_output hu]
    exact hentry hx hl

lemma exists_names (hr : r.Wired unitG) (hhole : c.IsHole unit hole) (hsuits : c.Suits r hole)
    (hcopy : IsCopy c.graph r.graph g ι keepNames) :
    ∃ unit' : Pin → UnitId, (∀ p, c.graph.Live p.vertex → unit' p = unit p) ∧ (c.copiedNet r g ι).Threaded unit' ∧
      ∀ {x l}, x ∈ r.slots hole → c.graph.edges.get? x.2.1 = some l →
        unit' ⟨ι x.1.2.input, 0⟩ = unit l.source ∧ unit' ⟨ι x.1.2.output, 0⟩ = unit l.source := by
  have : Nonempty UnitId := ⟨.qubit 0⟩
  obtain ⟨unit', f, hhost, hunit, hentry, hends⟩ := exists_labels hr hsuits hcopy unit
  refine ⟨unit', hhost, ?_, hends⟩
  have hrelabel : r.graph.net.Threaded fun p => f (unitG p) := by
    refine ⟨hr.threaded.toFitted, fun hl hlin => congrArg f (hr.threaded.same_unit hl hlin),
      fun {a b} ha hb hak hbl hv hsame => ?_⟩
    obtain ⟨_, hu, _⟩ := hr.onWire_unit (hr.threaded.source_wire ha) (WireKind.isLinear_carrier _)
    obtain ⟨ends', hu', hpath⟩ := hr.onWire_unit (hr.threaded.target_wire hb) hbl
    obtain ⟨_, hx⟩ := hsuits.exists_slot_of_unit hu
    obtain ⟨slot', hy⟩ := hsuits.exists_slot_of_unit hu'
    obtain ⟨l, hl, _⟩ := hsuits.slot hx
    obtain ⟨_, hl', _, hlin', hthrough⟩ := hsuits.slot hy
    have hne := hr.threaded.apart ha hb hak hbl hv
    -- the two units fill slots of one wire, so they only read and are not written
    have hnone : slot'.2 = none := by
      by_contra hsome
      refine hhole.unit_ne_of_slot hsuits hx hy (fun heq => hne (congrArg (fun x => x.1.1) heq)) hl hl'
        (.inr (isSome_iff_ne_none.mpr hsome)) ?_
      rw [← hentry hx hl, ← hentry hy hl']
      exact hsame
    rw [hnone] at hlin'
    obtain ⟨m, hm, hmlin, hms, hmt⟩ := hthrough (WireKind.eq_boolean (by rw [hlin']; simp))
    have htarget : b.target.vertex = ends'.output := by
      rcases hr.onWire_of_through hu' hm hmlin hms hmt ⟨ends', hu', hpath⟩ with hb' | hb'
      · exact absurd ⟨_, ends', hu', (congrArg Pin.vertex hb').symm⟩ (hr.target_open hb)
      · exact congrArg Pin.vertex hb'
    have hwire := hr.threaded.target_wire ha
    have hsig : r.graph.net.signature? a.target.vertex = some [(unitG b.target).kind.wire] := by
      rw [hv, htarget]
      exact hr.signature_output hu'
    have hkind := (pin_of_single hsig hwire).2
    exact WireKind.ne_boolean (WireKind.isLinear_wire _) (hkind.symm.trans hak)
  exact hcopy.isImage.threaded hrelabel fun p hp => hunit p (signature?_iff.mp hp)

/-! ## The slots of the net -/

section Slots

variable {keepNames : Bool} (h : c.Wired unit) (hr : r.Wired unitG) (hhole : c.IsHole unit hole)
  (hsuits : c.Suits r hole) (hcopy : IsCopy c.graph r.graph g ι keepNames)

variable (hx : x ∈ r.slots hole) (hy : y ∈ r.slots hole)

include hsuits hx in
lemma Suits.entry_eq : c.graph.edges.get? x.2.1 = some (slotOf c.graph ι x).entry := by
  obtain ⟨l, hl, _⟩ := hsuits.slot hx
  unfold slotOf
  rw [hl]
  rfl

include hhole hx in
lemma IsHole.isSlot : c.IsSlot hole.interior x.2 (slotOf c.graph ι x).entry := by
  obtain ⟨entry, hslot⟩ := hhole.slot (mem_slots hx).2
  have heq : (slotOf c.graph ι x).entry = entry := by
    unfold slotOf
    rw [hslot.get?_entry]
    rfl
  rw [heq]
  exact hslot

include hhole hx in
lemma IsHole.exit_eq {e : Edge} (he : x.2.2 = some e) :
    ∃ l, c.graph.edges.get? e = some l ∧ (slotOf c.graph ι x).exit = some l := by
  obtain ⟨_, l, hl, _⟩ := (hhole.isSlot (ι := ι) hx).exit he
  refine ⟨l, hl, ?_⟩
  unfold slotOf
  rw [he]
  exact hl

lemma exit_of_slotOf {l : Link} (hl : (slotOf c.graph ι x).exit = some l) :
    ∃ e, x.2.2 = some e ∧ c.graph.edges.get? e = some l := bind_eq_some_iff.mp hl

include hhole hx in
lemma IsHole.none_of_slotOf (hnone : (slotOf c.graph ι x).exit = none) : x.2.2 = none := by
  cases he : x.2.2 with
  | none => rfl
  | some e =>
    obtain ⟨l, _, hl⟩ := hhole.exit_eq hx he
    rw [hnone] at hl
    cases hl

include hr hsuits hcopy hx hy in
lemma slot_of_input (heq : (slotOf c.graph ι x).input = (slotOf c.graph ι y).input) : x = y := by
  obtain ⟨hu, _⟩ := mem_slots hx
  obtain ⟨hu', _⟩ := mem_slots hy
  have hsame := hcopy.injective (hr.live_input hu) (hr.live_input hu') heq
  exact hsuits.eq_of_unit hx hy (hr.wellFormed.distinct hu hu' (.inl hsame))

include hr hsuits hcopy hx hy in
lemma slot_of_output (heq : (slotOf c.graph ι x).output = (slotOf c.graph ι y).output) : x = y := by
  obtain ⟨hu, _⟩ := mem_slots hx
  obtain ⟨hu', _⟩ := mem_slots hy
  have hsame := hcopy.injective (hr.live_output hu) (hr.live_output hu') heq
  exact hsuits.eq_of_unit hx hy (hr.wellFormed.distinct hu hu' (.inr hsame))

include hr hsuits hcopy in
lemma nodup_slots : (c.slotsAt ι (r.slots hole)).Nodup := by
  refine Nodup.map_on (fun x hx y hy heq => ?_) (Nodup.of_map _ hsuits.nodup_units)
  exact slot_of_input hr hsuits hcopy hx hy (congrArg Slot.input heq)

include hr hsuits hcopy in
lemma complete_copies : (c.copiedNet r g ι).Complete (fun v => ∃ s ∈ c.slotsAt ι (r.slots hole), s.input = v)
    (fun v => ∃ s ∈ c.slotsAt ι (r.slots hole), s.output = v) := by
  have hends : ∀ (side : Ends → Vertex) (side' : Slot → Vertex), (∀ x, side' (slotOf c.graph ι x) = ι (side x.1.2)) → ∀ w,
        (∃ s ∈ c.slotsAt ι (r.slots hole), side' s = w) ↔
          ∃ v, (∃ u ends, r.boundary.get? u = some ends ∧ side ends = v) ∧ ι v = w := by
    intro side side' hside w
    constructor
    · rintro ⟨s, hs, rfl⟩
      obtain ⟨x, hx, rfl⟩ := mem_map.mp hs
      exact ⟨_, ⟨_, _, (mem_slots hx).1, rfl⟩, (hside x).symm⟩
    · rintro ⟨v, ⟨u, ends, hu, rfl⟩, rfl⟩
      obtain ⟨slot, hx⟩ := hsuits.exists_slot_of_unit hu
      exact ⟨_, mem_map_of_mem hx, hside _⟩
  exact hcopy.isImage.complete hr.threaded.toFitted hr.complete (hends Ends.input Slot.input fun _ => rfl)
    (hends Ends.output Slot.output fun _ => rfl)

include hr hsuits hcopy hx in
lemma signature_copies :
    (c.copiedNet r g ι).signature? (slotOf c.graph ι x).input = some [(slotOf c.graph ι x).entry.kind.carrier] ∧
      (c.copiedNet r g ι).signature? (slotOf c.graph ι x).output = some [(slotOf c.graph ι x).entry.kind.carrier] := by
  obtain ⟨hu, _⟩ := mem_slots hx
  obtain ⟨l, hl, hkind, _⟩ := hsuits.slot hx
  cases mem_unique hl (hsuits.entry_eq (ι := ι) hx)
  rw [WireKind.carrier_eq_wire, hkind]
  exact ⟨hcopy.isImage.signature (hr.signature_input hu), hcopy.isImage.signature (hr.signature_output hu)⟩

include hr hsuits hcopy hx in
lemma through_copies (hnone : x.2.2 = none) {m : Link} (hm : (c.copiedNet r g ι).link m) (hlin : m.kind.isLinear) :
    m.source.vertex = (slotOf c.graph ι x).input ↔ m.target.vertex = (slotOf c.graph ι x).output := by
  obtain ⟨hu, _⟩ := mem_slots hx
  obtain ⟨l, _, _, hexit, hthrough⟩ := hsuits.slot hx
  rw [hnone] at hexit
  obtain ⟨t, ht, htlin, hts, htt⟩ := hthrough (WireKind.eq_boolean (by rw [hexit]; simp))
  obtain ⟨m, hm, rfl⟩ := hm
  constructor
  · intro hsource
    have hv := hcopy.injective (hr.valid.source_live hm) (hr.live_input hu) hsource
    have hpin : m.source = t.source := by
      have hsig := hr.signature_input hu
      rw [← hv] at hsig hts
      rw [hts]
      exact (pin_of_single hsig (hr.threaded.source_wire hm)).1
    have hmt := hr.threaded.out_unique hm ht hlin htlin hpin
    show ι m.target.vertex = ι x.1.2.output
    rw [hmt, htt]
  · intro htarget
    have hv := hcopy.injective (hr.valid.target_live hm) (hr.live_output hu) htarget
    have hsig := hr.signature_output hu
    have hpin : m.target = t.target := by
      have hm' := (pin_of_single (hv ▸ hsig) (hr.threaded.target_wire hm)).1
      have ht' := (pin_of_single (htt ▸ hsig) (hr.threaded.target_wire ht)).1
      rw [hm', ht', hv, htt]
    have hmt := hr.threaded.in_unique hm ht hpin
    show ι m.source.vertex = ι x.1.2.input
    rw [hmt, hts]

include h hr hsuits hcopy in
/-- **The wires of a copied replacement go into the slots that it suits**, if these lead out along different wires. -/
theorem slotted_of_copy
    (hexit : ∀ {x e}, x ∈ r.slots hole → x.2.2 = some e → ∃ l, c.graph.edges.get? e = some l ∧ l.kind.isLinear ∧
      l.kind = (slotOf c.graph ι x).entry.kind)
    (hunique : ∀ {x y e e' l m}, x ∈ r.slots hole → y ∈ r.slots hole → x.2.2 = some e → y.2.2 = some e' →
      c.graph.edges.get? e = some l → c.graph.edges.get? e' = some m → l.source = m.source → x = y) :
    Slotted c.graph.net (c.copiedNet r g ι) c.IsInput c.IsOutput (c.slotsAt ι (r.slots hole)) := by
  constructor
  case host_fitted => exact h.threaded.toFitted
  case host_complete => exact h.complete
  case guest_fitted =>
    obtain ⟨κ, hκ⟩ := hcopy.toHosts.exists_inverse
    have hthreaded : (c.copiedNet r g ι).Threaded fun p => unitG (p.map κ) :=
      hcopy.isImage.threaded hr.threaded fun p hp => by
        show unitG ⟨κ (ι p.vertex), p.index⟩ = _
        rw [hκ _ (signature?_iff.mp hp)]
    exact hthreaded.toFitted
  case guest_complete => exact complete_copies hr hsuits hcopy
  case disjoint => exact hcopy.isUnion.disjoint
  case entry_link =>
    intro s hs
    obtain ⟨x, hx, rfl⟩ := mem_map.mp hs
    exact ⟨_, hsuits.entry_eq hx⟩
  case exit_link =>
    intro s l hs hl
    obtain ⟨x, hx, rfl⟩ := mem_map.mp hs
    obtain ⟨e, he, hget⟩ := exit_of_slotOf hl
    obtain ⟨m, hm, hspec⟩ := hexit hx he
    cases mem_unique hget hm
    exact ⟨⟨e, hget⟩, hspec⟩
  case exit_unique =>
    intro s t l m hs ht hl hm heq
    obtain ⟨x, hx, rfl⟩ := mem_map.mp hs
    obtain ⟨y, hy, rfl⟩ := mem_map.mp ht
    obtain ⟨e, he, hget⟩ := exit_of_slotOf hl
    obtain ⟨e', he', hget'⟩ := exit_of_slotOf hm
    rw [hunique hx hy he he' hget hget' heq]
  case signature_input =>
    intro s hs
    obtain ⟨x, hx, rfl⟩ := mem_map.mp hs
    exact (signature_copies hr hsuits hcopy hx).1
  case signature_output =>
    intro s hs
    obtain ⟨x, hx, rfl⟩ := mem_map.mp hs
    exact (signature_copies hr hsuits hcopy hx).2
  case input_ne_output =>
    intro s t hs ht heq
    obtain ⟨x, hx, rfl⟩ := mem_map.mp hs
    obtain ⟨y, hy, rfl⟩ := mem_map.mp ht
    obtain ⟨hu, _⟩ := mem_slots hx
    obtain ⟨hu', _⟩ := mem_slots hy
    have hsame := hcopy.injective (hr.live_input hu) (hr.live_output hu') heq
    exact hr.not_isOutput ⟨_, _, hu, rfl⟩ ⟨_, _, hu', hsame.symm⟩
  case input_injective =>
    intro s t hs ht heq
    obtain ⟨x, hx, rfl⟩ := mem_map.mp hs
    obtain ⟨y, hy, rfl⟩ := mem_map.mp ht
    rw [slot_of_input hr hsuits hcopy hx hy heq]
  case output_injective =>
    intro s t hs ht heq
    obtain ⟨x, hx, rfl⟩ := mem_map.mp hs
    obtain ⟨y, hy, rfl⟩ := mem_map.mp ht
    rw [slot_of_output hr hsuits hcopy hx hy heq]

include h hr hhole hsuits hcopy in
lemma IsHole.slotted_of_copy : Slotted c.graph.net (c.copiedNet r g ι) c.IsInput c.IsOutput (c.slotsAt ι (r.slots hole)) := by
  refine Circuit.slotted_of_copy h hr hsuits hcopy (fun {x e} hx he => ?_) fun {x y e e' l m} hx hy he he' hl hm heq => ?_
  · obtain ⟨_, l, hl, hlin, _, _, hkind, _⟩ := (hhole.isSlot hx).exit_spec h he
    exact ⟨l, hl, hlin, hkind⟩
  · obtain ⟨_, _, hl', _, _, _, _, hu, _⟩ := (hhole.isSlot hx).exit_spec h he
    obtain ⟨_, _, hm', _, _, _, _, hu', _⟩ := (hhole.isSlot hy).exit_spec h he'
    cases mem_unique hl hl'
    cases mem_unique hm hm'
    by_contra hne
    refine hhole.unit_ne_of_slot hsuits hx hy hne (hsuits.entry_eq (ι := ι) hx) (hsuits.entry_eq (ι := ι) hy)
      (.inl (by rw [he]; rfl)) ?_
    rw [← hu, ← hu', heq]

include h hr hhole hsuits hcopy in
lemma fits_of_copy {unit' : Pin → UnitId} (hhost : ∀ p, c.graph.Live p.vertex → unit' p = unit p)
    (hguest : (c.copiedNet r g ι).Threaded unit')
    (hends : ∀ {x l}, x ∈ r.slots hole → c.graph.edges.get? x.2.1 = some l →
      unit' ⟨ι x.1.2.input, 0⟩ = unit l.source ∧ unit' ⟨ι x.1.2.output, 0⟩ = unit l.source) :
    Net.Fits c.graph.net (c.copiedNet r g ι) (fun v => hole.interior.contains v) unit' c.IsInput c.IsOutput
      (c.slotsAt ι (r.slots hole)) := by
  have hunit : ∀ {l}, c.graph.HasLink l → unit' l.source = unit l.source := fun hl => hhost _ (h.valid.source_live hl)
  have hentry : ∀ {x}, x ∈ r.slots hole → c.graph.HasLink (slotOf c.graph ι x).entry := fun hx =>
    ⟨_, hsuits.entry_eq hx⟩
  have hinside : ∀ {s}, s ∈ c.slotsAt ι (r.slots hole) → hole.interior.contains s.entry.target.vertex := by
    intro s hs
    obtain ⟨x, hx, rfl⟩ := mem_map.mp hs
    exact (hhole.isSlot hx).inside
  have hseated : Net.Seated c.graph.net (c.copiedNet r g ι) (fun v => hole.interior.contains v)
      (fun p => hole.interior.contains p.vertex) c.IsInput c.IsOutput (c.slotsAt ι (r.slots hole)) := by
    constructor
    case toSlotted => exact hhole.slotted_of_copy h hr hsuits hcopy
    case inner =>
      intro v hv
      obtain ⟨k, hk, _⟩ := hhole.interior hv
      exact ⟨signature?_iff.mpr (live_of_kind? hk), hhole.not_isInput h.toFramed hv⟩
    case inside => exact id
    case entry_outside =>
      intro s hs
      obtain ⟨x, hx, rfl⟩ := mem_map.mp hs
      exact (hhole.isSlot hx).outside
    case entry_crosses => exact fun hs => .inr (hinside hs)
    case entry_injective =>
      intro s t l hs ht hl heq
      obtain ⟨x, hx, rfl⟩ := mem_map.mp hs
      obtain ⟨y, hy, rfl⟩ := mem_map.mp ht
      -- slots at one pin would be of one unit, but the units of slots differ
      obtain ⟨e, he, _⟩ := exit_of_slotOf hl
      by_contra hne
      refine hhole.unit_ne_of_slot hsuits hx hy (fun hxy => hne (by rw [hxy])) (hsuits.entry_eq (ι := ι) hx)
        (hsuits.entry_eq (ι := ι) hy) (.inl (by rw [he]; rfl)) ?_
      exact congrArg unit heq
    case exit_crosses =>
      intro s l hs hl
      obtain ⟨x, hx, rfl⟩ := mem_map.mp hs
      obtain ⟨e, he, hget⟩ := exit_of_slotOf hl
      obtain ⟨_, m, hm, _, hin, hout, _⟩ := (hhole.isSlot (ι := ι) hx).exit_spec h he
      cases mem_unique hget hm
      exact ⟨hin, hout⟩
    case enters =>
      rintro l ⟨e, he⟩ hlin hout hcross
      have hin := hcross.resolve_left hout
      obtain ⟨_, hslot⟩ := hhole.enters he hlin hout hin
      obtain ⟨u, _, hx⟩ := hsuits.exists_unit_of_slot hslot
      obtain ⟨m, _, hexit⟩ := hhole.exit_eq hx rfl
      refine ⟨_, mem_map_of_mem hx, m, hexit, ?_⟩
      exact mem_unique (hsuits.entry_eq hx) he
    case through =>
      intro s l hs hnone hl hlin
      obtain ⟨x, hx, rfl⟩ := mem_map.mp hs
      exact through_copies hr hsuits hcopy hx (hhole.none_of_slotOf hx hnone) hl hlin
  constructor
  case toSeated => exact hseated
  case host_threaded => exact h.threaded.congr fun p hp => hhost p (signature?_iff.mp hp)
  case guest_threaded => exact hguest
  case entry_inside => exact hinside
  case read_only =>
    intro s hs hnone
    obtain ⟨x, hx, rfl⟩ := mem_map.mp hs
    exact (hhole.isSlot hx).read (hhole.none_of_slotOf hx hnone)
  case unit_input =>
    intro s hs
    obtain ⟨x, hx, rfl⟩ := mem_map.mp hs
    exact (hends hx (hsuits.entry_eq hx)).1.trans (hunit (hentry hx)).symm
  case unit_output =>
    intro s hs
    obtain ⟨x, hx, rfl⟩ := mem_map.mp hs
    exact (hends hx (hsuits.entry_eq hx)).2.trans (hunit (hentry hx)).symm
  case unit_exit =>
    intro s l hs hl
    obtain ⟨x, hx, rfl⟩ := mem_map.mp hs
    obtain ⟨e, he, hget⟩ := exit_of_slotOf hl
    obtain ⟨_, m, hm, _, _, _, _, hu, _⟩ := (hhole.isSlot hx).exit_spec h he
    cases mem_unique hget hm
    rw [hunit ⟨e, hget⟩, hunit (hentry hx), hu]

include h hr hsuits hcopy in
lemma ready_of_copy (opgroups : SortedMap String Signature)
    (hslotted : Slotted c.graph.net (c.copiedNet r g ι) c.IsInput c.IsOutput (c.slotsAt ι (r.slots hole)))
    (hexit : ∀ {x e}, x ∈ r.slots hole → x.2.2 = some e → ∃ l, c.graph.edges.get? e = some l) :
    Ready c { c with graph := g, opgroups } (c.copiedNet r g ι) ι (r.slots hole) where
  slotted := hslotted
  framed := h.toFramed
  union := hcopy.isUnion
  old := hcopy.toHosts.kind?_old
  valid := hcopy.valid
  simple := hcopy.simple
  kept := hcopy.kept
  entry hx := ⟨_, hsuits.entry_eq (ι := ι) hx⟩
  exit := hexit
  nodup := nodup_slots hr hsuits hcopy

end Slots

end Circuit

end Wireloom
