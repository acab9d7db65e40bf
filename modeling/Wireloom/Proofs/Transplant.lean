import Wireloom.Proofs.Gluing

/-!
# `Circuit.Substituted.equivalent` — replacing operations of equivalent circuits

The hole of an operation lists edges, which are handles, and in equivalent circuits they differ. The links behind them do
not, so the slots of matched operations have matched links (`Equivalent.exists_hole`).
-/

namespace Wireloom

/-! ## Nets -/

namespace Net

variable {N N' M M' H G H' G' : Net} {P R R' : Vertex → Prop} {j : Vertex → Vertex} {slots : List Slot} {s : Slot}
  {v : Vertex} {vs : List Vertex} {p q : Pin}

lemma Carries.splices (h : Carries P j N M) (hj : ∀ {v w}, P v → P w → j v = j w → v = w) (hvs : ∀ v ∈ vs, P v)
    (hN : N.Splices vs N') (hM : M.Splices (vs.map j) M') : Carries P j N' M' := by
  induction hN generalizing M with
  | nil =>
    cases hM
    exact h
  | cons hv _ ih =>
    cases hM with
    | cons hv' hrest =>
      exact ih (h.splice hj (hvs _ List.mem_cons_self) hv hv') (fun w hw => hvs w (List.mem_cons_of_mem _ hw)) hrest

/-- A slot with its ends and links moved. -/
def Slot.map (j : Vertex → Vertex) (s : Slot) : Slot :=
  ⟨j s.input, j s.output, s.entry.map j, s.exit.map (Link.map j)⟩

/-- The slot has its ends and links among the vertices of `P`. -/
structure Slot.Within (P : Vertex → Prop) (s : Slot) : Prop where
  input : P s.input
  output : P s.output
  entry : P s.entry.source.vertex
  exit : ∀ {x}, s.exit = some x → P x.source.vertex ∧ P x.target.vertex

section Plug

variable (hj : ∀ {v w}, P v → P w → j v = j w → v = w) (hwithin : ∀ s ∈ slots, s.Within P)
include hj hwithin

lemma dropped_map_iff (hv : P v) : Dropped (slots.map (Slot.map j)) (j v) ↔ Dropped slots v := by
  constructor
  · rintro ⟨_, hs', hnone, hend⟩
    obtain ⟨s, hs, rfl⟩ := List.mem_map.mp hs'
    refine ⟨s, hs, Option.map_eq_none_iff.mp hnone, ?_⟩
    exact hend.imp (hj (hwithin s hs).input hv) (hj (hwithin s hs).output hv)
  · rintro ⟨s, hs, hnone, hend⟩
    exact ⟨s.map j, List.mem_map_of_mem hs, by rw [Slot.map, hnone]; rfl, hend.imp (congrArg j) (congrArg j)⟩

omit hj in
lemma HostSource.map (hR : ∀ {v}, P v → (R' (j v) ↔ R v)) (hp : P p.vertex) (h : HostSource (fun p => R p.vertex) slots p q) :
    P q.vertex ∧ HostSource (fun p => R' p.vertex) (slots.map (Slot.map j)) (p.map j) (q.map j) := by
  cases h with
  | outside hout => exact ⟨hp, .outside (mt (hR hp).mp hout)⟩
  | @leaving s x hs hx =>
    refine ⟨(hwithin s hs).output, .leaving (x := x.map j) (List.mem_map_of_mem hs) ?_⟩
    rw [Slot.map, hx]
    rfl

lemma GuestSource.map (hp : P p.vertex) (h : GuestSource slots p q) :
    P q.vertex ∧ GuestSource (slots.map (Slot.map j)) (p.map j) (q.map j) := by
  cases h with
  | inside hin => exact ⟨hp, .inside (mt (dropped_map_iff hj hwithin hp).mp hin)⟩
  | @reading s hs hx =>
    refine ⟨(hwithin s hs).entry, .reading (List.mem_map_of_mem hs) ?_⟩
    rw [Slot.map, hx]
    rfl

lemma Carries.plug (hH : Carries P j H H') (hG : Carries P j G G') (hR : ∀ {v}, P v → (R' (j v) ↔ R v)) :
    Carries P j (plug H G R slots) (plug H' G' R' (slots.map (Slot.map j))) where
  ends hm := by
    cases hm with
    | host hl _ hq => exact ⟨(hq.map hwithin hR (hH.ends hl).1).1, (hH.ends hl).2⟩
    | guest hl _ hq => exact ⟨(hq.map hj hwithin (hG.ends hl).1).1, (hG.ends hl).2⟩
    | @entry s x hs hx => exact ⟨(hwithin s hs).entry, (hwithin s hs).input⟩
  link hm := by
    cases hm with
    | @host l q hl ht hq =>
      exact .host (hH.link hl) (mt (hR (hH.ends hl).2).mp ht) (hq.map hwithin hR (hH.ends hl).1).2
    | @guest l q hl ht hq =>
      exact .guest (hG.link hl) (mt (dropped_map_iff hj hwithin (hG.ends hl).2).mp ht) (hq.map hj hwithin (hG.ends hl).1).2
    | @entry s x hs hx =>
      refine .entry (x := x.map j) (List.mem_map_of_mem hs) ?_
      rw [Slot.map, hx]
      rfl

end Plug

end Net

namespace Circuit

open Wireloom.Graph List Net Option

variable {c c' r r' d d' : Circuit} {ι ιR κ κ' : Vertex → Vertex} {unit unitG unitD unitD' : Pin → UnitId} {hole hole' : Hole}
  {policy : OpgroupPolicy} {g g' : Graph} {v w : Vertex} {l m : Link} {e e' : Edge} {k : NodeKind} {o : Op}
  {j : Vertex → Vertex}

/-! ## Holes -/

lemma holeAt_run (h : c.Wired unit) (hk : c.graph.kind? v = some (.op o)) : ∃ hole, c.holeAt v = .ok hole := by
  have hcheck : c.checkInterior v = .ok () := by
    unfold checkInterior
    rw [kind_eq_ok.mpr hk]
    rfl
  have hexit : ∀ p ∈ c.slotLinks v, ∃ x, (if p.2.kind.isLinear then
      c.graph.linkOut p.2.target >>= fun q => Except.ok (some q.1) else .ok none) = .ok x := by
    intro p hp
    obtain ⟨he, ht⟩ := (mem_slotLinks h.valid).mp hp
    split
    · next hlin =>
      have hdrained := (h.complete.drained_iff (h.threaded.target_wire ⟨_, he⟩) hlin).mpr (ht ▸ h.not_isOutput_of_op hk)
      obtain ⟨m, hm, hmlin, hms⟩ := hdrained
      obtain ⟨_, hout, _⟩ := linkOut_of_unique h.valid hm hmlin fun m' hm' hs hlin' =>
        h.threaded.out_unique hm' hm hlin' hmlin hs
      rw [hms] at hout
      rw [hout]
      exact ⟨_, rfl⟩
    · exact ⟨_, rfl⟩
  obtain ⟨exits, hexits⟩ := except_mapM_of_ok hexit
  exact ⟨_, except_bind_ok hcheck (except_bind_ok hexits rfl)⟩

/-- The slots have matched links. -/
def SlotsMatch (ι : Vertex → Vertex) (c c' : Circuit) (slot slot' : Edge × Option Edge) : Prop :=
  ∃ l, c.graph.edges.get? slot.1 = some l ∧ c'.graph.edges.get? slot'.1 = some (l.map ι) ∧ slot'.2.isSome = slot.2.isSome ∧
    slot'.2.bind c'.graph.edges.get? = (slot.2.bind c.graph.edges.get?).map (Link.map ι)

lemma Equivalent.inLinks_eq (h : Equivalent ι c c') (hk : c.graph.kind? v = some (.op o)) :
    (c'.graph.inLinks (ι v)).map Prod.snd = ((c.graph.inLinks v).map Prod.snd).map (Link.map ι) := by
  have hc := h.sound.wellFormed.wired
  have hc' := h.sound'.wellFormed.wired
  have hk' := (h.kind?_eq (live_of_kind? hk)).trans hk
  obtain ⟨n, hn, hkind⟩ := map_eq_some_iff.mp hk
  obtain ⟨_, hn', hkind'⟩ := map_eq_some_iff.mp hk'
  have hin := hc.not_isInput_of_op hk
  have hin' := hc'.not_isInput_of_op hk'
  refine ext_getElem? fun i => ?_
  rw [getElem?_map, getElem?_map, getElem?_map]
  cases hi : (c.graph.inLinks v)[i]? with
  | none =>
    rw [getElem?_eq_none_iff, hc.length_inLinks hn hin] at hi
    rw [getElem?_eq_none (by rw [hc'.length_inLinks hn' hin', hkind', ← hkind]; exact hi)]
    rfl
  | some p =>
    have hlt := (List.getElem?_eq_some_iff.mp hi).1
    rw [hc.length_inLinks hn hin, hkind, ← hkind', ← hc'.length_inLinks hn' hin'] at hlt
    have hi' := getElem?_eq_getElem hlt
    generalize (c'.graph.inLinks (ι v))[i] = p' at hi'
    rw [hi']
    obtain ⟨hget, ht⟩ := (mem_inLinks h.valid).mp (mem_of_getElem? hi)
    obtain ⟨hget', ht'⟩ := (mem_inLinks h.valid').mp (mem_of_getElem? hi')
    have hpin : p'.2.target = (p.2.map ι).target :=
      Pin.ext (ht'.trans (congrArg ι ht).symm) ((hc'.index_of_inLinks hn' hin' hi').trans (hc.index_of_inLinks hn hin hi).symm)
    have hlink := hc'.threaded.in_unique ⟨_, hget'⟩ (h.hasLink ⟨_, hget⟩) hpin
    exact congrArg some hlink

lemma Equivalent.slotLinks_eq (h : Equivalent ι c c') (hk : c.graph.kind? v = some (.op o)) :
    (c'.slotLinks (ι v)).map Prod.snd = ((c.slotLinks v).map Prod.snd).map (Link.map ι) := by
  have hsnd : ∀ (c : Circuit) (v : Vertex), (c.slotLinks v).map Prod.snd =
      sortedBy (fun l : Link => [slotRank l.kind, l.target.index]) ((c.graph.inLinks v).map Prod.snd) := by
    intro c v
    exact map_sortedBy fun _ _ => rfl
  have hmap : ∀ ls : List Link, (sortedBy (fun l : Link => [slotRank l.kind, l.target.index]) ls).map (Link.map ι) =
      sortedBy (fun l : Link => [slotRank l.kind, l.target.index]) (ls.map (Link.map ι)) := by
    intro ls
    exact map_sortedBy fun _ _ => rfl
  rw [hsnd, hsnd, hmap, h.inLinks_eq hk]

lemma HasExit.matches {x x' : Option Edge} (hx : c.HasExit (e, l) x) (hx' : c'.HasExit (e', l.map ι) x')
    (h : Equivalent ι c c') (he : c.graph.edges.get? e = some l) (he' : c'.graph.edges.get? e' = some (l.map ι)) :
    SlotsMatch ι c c' (e, x) (e', x') := by
  refine ⟨l, he, he', ?_⟩
  unfold HasExit at hx hx'
  by_cases hlin : l.kind.isLinear
  · rw [if_pos hlin] at hx
    rw [if_pos (show (l.map ι).kind.isLinear from hlin)] at hx'
    obtain ⟨f, m, rfl, hout⟩ := hx
    obtain ⟨f', m', rfl, hout'⟩ := hx'
    obtain ⟨hm, hms, hmlin⟩ := linkOut_eq_ok h.valid hout
    obtain ⟨hm', hms', hmlin'⟩ := linkOut_eq_ok h.valid' hout'
    have hsame : m' = m.map ι := h.sound'.wellFormed.wired.threaded.out_unique ⟨_, hm'⟩ (h.hasLink ⟨_, hm⟩) hmlin' hmlin
      (hms'.trans (congrArg (Pin.map ι) hms).symm)
    refine ⟨rfl, ?_⟩
    show c'.graph.edges.get? f' = (c.graph.edges.get? f).map _
    rw [hm, hm', hsame]
    rfl
  · rw [if_neg hlin] at hx
    rw [if_neg (show ¬ (l.map ι).kind.isLinear from hlin)] at hx'
    rw [hx, hx']
    exact ⟨rfl, rfl⟩

lemma forall₂_slotsMatch {links links' : List (Edge × Link)} {exits exits' : List (Option Edge)} (h : Equivalent ι c c')
    (hlinks : links'.map Prod.snd = (links.map Prod.snd).map (Link.map ι)) (hexits : Forall₂ c.HasExit links exits)
    (hexits' : Forall₂ c'.HasExit links' exits') (hget : ∀ p ∈ links, c.graph.edges.get? p.1 = some p.2)
    (hget' : ∀ p ∈ links', c'.graph.edges.get? p.1 = some p.2) :
    Forall₂ (SlotsMatch ι c c') ((links.map Prod.fst).zip exits) ((links'.map Prod.fst).zip exits') := by
  induction hexits generalizing links' exits' with
  | nil =>
    cases hexits' with
    | nil => exact .nil
    | cons _ _ => cases hlinks
  | @cons p x links exits hx _ ih =>
    cases hexits' with
    | nil => cases hlinks
    | @cons p' x' links' exits' hx' hexits' =>
      obtain ⟨hp, hrest⟩ := cons.inj hlinks
      obtain ⟨hgetp, hget⟩ := forall_mem_cons.mp hget
      obtain ⟨hgetp', hgets'⟩ := forall_mem_cons.mp hget'
      obtain ⟨_, _⟩ := p'
      cases hp
      exact .cons (hx.matches hx' h hgetp hgetp') (ih hrest hexits' hget hgets')

lemma Equivalent.exists_hole (h : Equivalent ι c c') (hhole : c.holeAt v = .ok hole) :
    ∃ hole', c'.holeAt (ι v) = .ok hole' ∧ hole'.entries.length = hole.entries.length ∧
      hole'.entries.length = hole'.exits.length ∧
      Forall₂ (SlotsMatch ι c c') (hole.entries.zip hole.exits) (hole'.entries.zip hole'.exits) := by
  obtain ⟨⟨k, hk, hb⟩, _, hexits, rfl⟩ := holeAt_eq_ok hhole
  obtain ⟨o, rfl⟩ : ∃ o, k = .op o := by
    cases k with
    | op o => exact ⟨o, rfl⟩
    | _ => cases hb
  have hk' := (h.kind?_eq (live_of_kind? hk)).trans hk
  obtain ⟨hole', hhole'⟩ := holeAt_run h.sound'.wellFormed.wired hk'
  obtain ⟨_, _, hexits', rfl⟩ := holeAt_eq_ok hhole'
  have hlinks := h.slotLinks_eq hk
  refine ⟨_, hhole', ?_, ?_, forall₂_slotsMatch h hlinks hexits hexits' (fun p hp => ((mem_slotLinks h.valid).mp hp).1)
    fun p hp => ((mem_slotLinks h.valid').mp hp).1⟩
  · simpa using congrArg length hlinks
  · simpa using hexits'.length_eq

/-- A unit of the replacement and the slot that it fills, matched. -/
structure FillsMatch (ι ιR : Vertex → Vertex) (c c' : Circuit) (x x' : Filling) : Prop where
  unit : x'.1.1 = x.1.1
  ends : x'.1.2 = x.1.2.map ιR
  slot : SlotsMatch ι c c' x.2 x'.2

lemma forall₂_fillsMatch (hr : Equivalent ιR r r')
    (hslots : Forall₂ (SlotsMatch ι c c') (hole.entries.zip hole.exits) (hole'.entries.zip hole'.exits)) :
    Forall₂ (FillsMatch ι ιR c c') (r.slots hole) (r'.slots hole') := by
  unfold slots
  rw [hr.boundary_eq]
  show Forall₂ _ (r.boundary.entries.zip _) ((r.boundary.entries.map fun x => (x.1, x.2.map ιR)).zip _)
  generalize r.boundary.entries = units
  generalize hole.entries.zip hole.exits = slots at *
  generalize hole'.entries.zip hole'.exits = slots' at *
  induction hslots generalizing units with
  | nil => cases units <;> exact .nil
  | cons hslot _ ih =>
    cases units with
    | nil => exact .nil
    | cons x units => exact .cons ⟨rfl, rfl, hslot⟩ (ih units)

lemma FillsMatch.slotOf_eq {x x' : Filling} (hx : FillsMatch ι ιR c c' x x') (hmem : x ∈ r.slots hole)
    (h : Equivalent ι c c') (hr : r.Framed) (hj : ∀ {v}, c.graph.Live v → j v = ι v)
    (hjR : ∀ {v}, r.graph.Live v → j (κ v) = κ' (ιR v)) :
    slotOf c'.graph κ' x' = (slotOf c.graph κ x).map j := by
  obtain ⟨l, hl, hl', _, hexit⟩ := hx.slot
  have hlink : ∀ {e l}, c.graph.edges.get? e = some l → l.map j = l.map ι := fun he =>
    Link.map_congr (hj (h.valid.source_live ⟨_, he⟩)) (hj (h.valid.target_live ⟨_, he⟩))
  have hu := (mem_slots hmem).1
  unfold slotOf Slot.map
  rw [hl, hl', hexit, hx.ends]
  refine congr (congr (congr (congrArg Slot.mk ?_) ?_) ?_) ?_
  · exact (hjR (hr.live_input hu)).symm
  · exact (hjR (hr.live_output hu)).symm
  · exact (hlink hl).symm
  · cases he : x.2.2.bind c.graph.edges.get? with
    | none => rfl
    | some m =>
      obtain ⟨e, _, hm⟩ := bind_eq_some_iff.mp he
      exact congrArg some (hlink hm).symm

lemma slots_eq (hfills : Forall₂ (FillsMatch ι ιR c c') (r.slots hole) (r'.slots hole')) (h : Equivalent ι c c')
    (hr : r.Framed) (hj : ∀ {v}, c.graph.Live v → j v = ι v)
    (hjR : ∀ {v}, r.graph.Live v → j (κ v) = κ' (ιR v)) :
    c'.slotsAt κ' (r'.slots hole') = (c.slotsAt κ (r.slots hole)).map (Slot.map j) := by
  have hall := (forall₂_and_left _ _).mpr ⟨fun _ hx => hx, hfills⟩
  have hslots := hall.imp fun x x' hx => hx.2.slotOf_eq hx.1 h hr hj hjR
  rw [List.map_map, ← forall₂_eq_eq_eq, forall₂_map_left_iff, forall₂_map_right_iff]
  exact hslots.flip

lemma exists_of_mem_right {α β : Type} {R : α → β → Prop} {as : List α} {bs : List β} (h : Forall₂ R as bs) {b : β}
    (hb : b ∈ bs) : ∃ a ∈ as, R a b := by
  induction h with
  | nil => cases hb
  | cons hab _ ih =>
    rcases mem_cons.mp hb with rfl | hb
    · exact ⟨_, mem_cons_self, hab⟩
    · obtain ⟨a, ha, hab⟩ := ih hb
      exact ⟨a, mem_cons_of_mem _ ha, hab⟩

/-- **A replacement that suits the hole of an operation suits that of the matched one.** -/
theorem Equivalent.suits (h : Equivalent ι c c') (hr : Equivalent ιR r r') (hhole' : c'.holeAt w = .ok hole')
    (hsuits : c.Suits r hole) (hentries : hole'.entries.length = hole.entries.length)
    (hlength : hole'.entries.length = hole'.exits.length)
    (hfills : Forall₂ (FillsMatch ι ιR c c') (r.slots hole) (r'.slots hole')) : c'.Suits r' hole' where
  simple := by
    unfold isSimple
    rw [hr.units_eq]
    exact hsuits.simple
  length_eq := hlength
  size_eq := by
    rw [hentries, ← hsuits.size_eq, hr.boundary_eq]
    exact length_map _
  convex hv hw hvw hpath := by
    have hlink : ∀ v w, c'.Linked v w → c'.graph.net.Before v w := by
      rintro v w ⟨l, hl, rfl, rfl⟩
      exact .link hl
    exact convex_single h.sound'.wellFormed.wired hhole' hv hw (hlink _ _ hvw) (Relation.ReflTransGen.mono hlink _ _ hpath)
  slot hx' := by
    obtain ⟨x, hx, hmatch⟩ := exists_of_mem_right hfills hx'
    obtain ⟨l, hl, hkind, hlin, hthrough⟩ := hsuits.slot hx
    obtain ⟨_, hl0, hl', hsome, _⟩ := hmatch.slot
    cases mem_unique hl hl0
    refine ⟨l.map ι, hl', hkind.trans (congrArg UnitId.kind hmatch.unit.symm), hlin.trans hsome.symm, fun hbool => ?_⟩
    obtain ⟨m, hm, hmlin, hms, hmt⟩ := hthrough hbool
    rw [hmatch.ends]
    exact ⟨m.map ιR, hr.hasLink hm, hmlin, congrArg (Pin.map ιR) hms, congrArg ιR hmt⟩

/-! ## Copies -/

section Copies

variable {keepNames : Bool} (hcopy : IsCopy c.graph r.graph g κ keepNames)
  (hcopy' : IsCopy c'.graph r'.graph g' κ' keepNames) (h : Equivalent ι c c') (hr : Equivalent ιR r r')

include hcopy in
lemma glue_new (hv : r.graph.Live v) : glue κ c r ι (κ' ∘ ιR) (κ v) = κ' (ιR v) :=
  glue_copy (hcopy.toHosts.not_live hv) hv hcopy.injective

include hcopy in
lemma live_of_host (hv : c.graph.Live v) : g.Live v := by
  obtain ⟨n, hn⟩ := Graph.live_iff.mp hv
  exact Graph.live_iff.mpr ⟨n, hcopy.old hn⟩

include hcopy hcopy' h hr

lemma copies_node {n : Node} (hn : g.vertices.get? w = some n) :
    ∃ n', g'.vertices.get? (glue κ c r ι (κ' ∘ ιR) w) = some n' ∧ n'.kind = n.kind ∧ n'.opgroup = n.opgroup := by
  rcases hcopy.cases hn with hold | ⟨v, hv, rfl⟩
  · obtain ⟨n', hn', hsame⟩ := h.node_eq hold
    rw [glue_host (live_of_get? hold)]
    exact ⟨n', hcopy'.old hn', hsame⟩
  · obtain ⟨_, hn0⟩ := Graph.live_iff.mp hv
    obtain ⟨_, hn0', hkind, hog⟩ := hr.node_eq hn0
    obtain ⟨k, _, _, hget, rfl, rfl⟩ := hcopy.new hn0
    obtain ⟨_, _, _, hget', rfl, rfl⟩ := hcopy'.new hn0'
    cases mem_unique hget hn
    rw [glue_new hcopy hv]
    exact ⟨_, hget', hkind, by rw [hog]⟩

lemma copies_kind? (hw : g.Live w) : g'.kind? (glue κ c r ι (κ' ∘ ιR) w) = g.kind? w := by
  obtain ⟨n, hn⟩ := Graph.live_iff.mp hw
  obtain ⟨_, hn', hkind, _⟩ := copies_node hcopy hcopy' h hr hn
  rw [kind?, kind?, hn, hn', map_some, map_some, hkind]

lemma copies_injective (hv : g.Live v) (hw : g.Live w)
    (heq : glue κ c r ι (κ' ∘ ιR) v = glue κ c r ι (κ' ∘ ιR) w) : v = w := by
  obtain ⟨n, hn⟩ := Graph.live_iff.mp hv
  obtain ⟨m, hm⟩ := Graph.live_iff.mp hw
  rcases hcopy.cases hn with hv | ⟨v, hv', rfl⟩ <;> rcases hcopy.cases hm with hw | ⟨w, hw', rfl⟩
  · have hv := live_of_get? hv
    have hw := live_of_get? hw
    rw [glue_host hv, glue_host hw] at heq
    exact h.injective hv hw heq
  · have hv := live_of_get? hv
    rw [glue_host hv, glue_new hcopy hw'] at heq
    exact absurd (heq ▸ h.live hv) (hcopy'.toHosts.not_live (hr.live hw'))
  · have hw := live_of_get? hw
    rw [glue_new hcopy hv', glue_host hw] at heq
    exact absurd (heq ▸ h.live hw) (hcopy'.toHosts.not_live (hr.live hv'))
  · rw [glue_new hcopy hv', glue_new hcopy hw'] at heq
    exact congrArg κ (hr.injective hv' hw' (hcopy'.injective (hr.live hv') (hr.live hw') heq))

lemma copies_made : g'.bySequence.map Prod.fst = (g.bySequence.map Prod.fst).map (glue κ c r ι (κ' ∘ ιR)) := by
  rw [hcopy.made h.sound.numbered.sequenced, hcopy'.made h.sound'.numbered.sequenced, h.made, hr.made, map_append,
    List.map_map (g := κ'), map_map (f := κ)]
  refine congrArg₂ _ (map_congr_left fun v hv => ?_) (map_congr_left fun v hv => ?_)
  · exact (glue_host ((mem_map_bySequence h.valid).mp hv)).symm
  · exact (glue_new hcopy ((mem_map_bySequence hr.valid).mp hv)).symm

omit hcopy' hr in
lemma copies_host : Carries g.Live (glue κ c r ι (κ' ∘ ιR)) c.graph.net c'.graph.net where
  ends hl := ⟨live_of_host hcopy (h.valid.source_live hl), live_of_host hcopy (h.valid.target_live hl)⟩
  link hl := by
    rw [Link.map_congr (glue_host (h.valid.source_live hl)) (glue_host (h.valid.target_live hl))]
    exact h.hasLink hl

omit hcopy' h in
lemma copies_guest : Carries g.Live (glue κ c r ι (κ' ∘ ιR)) (c.copiedNet r g κ) (c'.copiedNet r' g' κ') where
  ends hm := by
    obtain ⟨l, hl, rfl⟩ := hm
    exact ⟨hcopy.toHosts.live_new (hr.valid.source_live hl), hcopy.toHosts.live_new (hr.valid.target_live hl)⟩
  link hm := by
    obtain ⟨l, hl, rfl⟩ := hm
    refine ⟨l.map ιR, hr.hasLink hl, ?_⟩
    unfold Link.map Pin.map
    dsimp only
    rw [glue_new hcopy (hr.valid.source_live hl), glue_new hcopy (hr.valid.target_live hl)]

end Copies

/-! ## What the slots do -/

section Slots

variable {j : Vertex → Vertex} {slots : List Slot} {s : Slot} (hkind : ∀ {w}, g.Live w → g'.kind? (j w) = g.kind? w)
  (hj : ∀ {v w}, g.Live v → g.Live w → j v = j w → v = w)

include hkind

lemma resets_map (hs : s.Within g.Live) : resets g' (s.map j) = resets g s := by
  unfold resets Slot.map
  rw [isSome_map, hkind hs.input]
  show (_ && (_ && !(g'.kind? (j s.entry.source.vertex)).any _)) = _
  rw [hkind hs.entry]

lemma splicedBy_map (hs : s.Within g.Live) : splicedBy g' (s.map j) = (splicedBy g s).map j := by
  unfold splicedBy
  rw [resets_map hkind hs]
  show (if (s.exit.map (Link.map j)).isSome then _ else _) = _
  rw [isSome_map]
  cases s.exit.isSome with
  | false => rfl
  | true => cases resets g s <;> rfl

include hj

lemma discards_map (hs : s.Within g.Live) (hv : g.Live v) : discards g' (s.map j) (j v) = discards g s v := by
  unfold discards Slot.map
  rw [hkind hs.output, hkind hv]
  cases hx : s.exit with
  | none => rfl
  | some x =>
    have htarget : decide (j x.target.vertex = j v) = decide (x.target.vertex = v) :=
      decide_eq_decide.mpr ⟨hj (hs.exit hx).2 hv, congrArg j⟩
    show (_ && (decide (j x.target.vertex = j v) && _)) = _
    rw [htarget]
    rfl

omit hkind hj in
lemma any_congr_mem {f f' : Slot → Bool} (hf : ∀ s ∈ slots, f s = f' s) : slots.any f = slots.any f' := by
  rw [Bool.eq_iff_iff, List.any_eq_true, List.any_eq_true]
  exact exists_congr fun s => and_congr_right fun hs => by rw [hf s hs]

lemma touched_map (hslots : ∀ s ∈ slots, s.Within g.Live) (hv : g.Live v) (k : NodeKind) :
    touched g' (slots.map (Slot.map j)) (j v) k = touched g slots v k := by
  have hreset : (slots.map (Slot.map j)).any (fun s => resets g' s && s.input = j v) =
      slots.any fun s => resets g s && s.input = v := by
    rw [List.any_map]
    refine any_congr_mem fun s hs => ?_
    show (resets g' (s.map j) && decide (j s.input = j v)) = _
    rw [resets_map hkind (hslots s hs), decide_eq_decide.mpr ⟨hj (hslots s hs).input hv, congrArg j⟩]
  have hdiscard : (slots.map (Slot.map j)).any (fun s => discards g' s (j v)) = slots.any fun s => discards g s v := by
    rw [List.any_map]
    exact any_congr_mem fun s hs => discards_map hkind hj (hslots s hs) hv
  unfold touched
  rw [hreset, hdiscard]

end Slots

/-! ## Substitution -/

namespace Substituted

section

variable (hs : Substituted c r hole policy d unitD g κ)
include hs

lemma within (hr : r.Framed) (hc : c.graph.Valid) : ∀ s ∈ c.slotsAt κ (r.slots hole), s.Within g.Live := by
  intro s hmem
  have hlive : ∀ {v}, c.graph.Live v → g.Live v := live_of_host hs.copy
  have hentry := hlive (hc.source_live (hs.plug.entry hmem).1)
  have hexit : ∀ {x}, s.exit = some x → g.Live x.source.vertex ∧ g.Live x.target.vertex := fun hx =>
    have hl := (hs.plug.exit hmem hx).1
    ⟨hlive (hc.source_live hl), hlive (hc.target_live hl)⟩
  obtain ⟨x, hx, rfl⟩ := mem_map.mp hmem
  have hu := (mem_slots hx).1
  exact ⟨hs.copy.toHosts.live_new (hr.live_input hu), hs.copy.toHosts.live_new (hr.live_output hu), hentry, hexit⟩

lemma live_of_spliced (hr : r.Framed) (hc : c.graph.Valid)
    (hw : w ∈ (c.slotsAt κ (r.slots hole)).flatMap (splicedBy g)) : g.Live w := by
  obtain ⟨s, hmem, _, _, hend⟩ := seam_of_spliced hw
  rcases hend with rfl | rfl
  · exact (hs.within hr hc s hmem).input
  · exact (hs.within hr hc s hmem).output

lemma live_iff (hw : g.Live w) : d.graph.Live w ↔ ¬ (w ∈ (c.slotsAt κ (r.slots hole)).flatMap (splicedBy g) ∨
      Waste (fun v => hole.interior.contains v) (c.slotsAt κ (r.slots hole)) w) := by
  constructor
  · intro hlive hgone
    obtain ⟨n, hn⟩ := Graph.live_iff.mp hlive
    rw [hs.cleared.gone hgone] at hn
    cases hn
  · intro hgone
    obtain ⟨hsplice, hwaste⟩ := not_or.mp hgone
    obtain ⟨n, hn⟩ := Graph.live_iff.mp hw
    exact Graph.live_iff.mpr ⟨_, by rw [hs.cleared.stays hsplice hwaste, hn]; rfl⟩

lemma made_eq (hc : c.Sound) (hd : d.Sound) :
    d.graph.bySequence.map Prod.fst = (g.bySequence.map Prod.fst).filter fun w => d.graph.vertices.contains w := by
  refine made_filter hs.copy.valid (hs.copy.lasts lasting_numbered hc.numbered) hd.wellFormed.valid hd.numbered fun hn => ?_
  obtain ⟨n0, hn0, rfl⟩ := hs.get?_cases hn
  exact ⟨n0, hn0, rfl⟩

end

section Matched

variable (hs : Substituted c r hole policy d unitD g κ) (hs' : Substituted c' r' hole' policy d' unitD' g' κ')
  (h : Equivalent ι c c') (hr : Equivalent ιR r r')
  (hinterior : ∀ {v}, c.graph.Live v → (hole'.interior.contains (ι v) = true ↔ hole.interior.contains v = true))
  (hfills : Forall₂ (FillsMatch ι ιR c c') (r.slots hole) (r'.slots hole'))

include hs hs' hr hinterior in
lemma interior_iff (hv : g.Live v) : hole'.interior.contains (glue κ c r ι (κ' ∘ ιR) v) ↔ hole.interior.contains v := by
  obtain ⟨n, hn⟩ := Graph.live_iff.mp hv
  rcases hs.copy.cases hn with hold | ⟨w, hw, rfl⟩
  · have hlive := live_of_get? hold
    rw [glue_host hlive]
    exact hinterior hlive
  · -- no copy stands in the hole
    rw [glue_new hs.copy hw]
    refine iff_of_false (fun hin => ?_) fun hin => ?_
    · exact hs'.copy.toHosts.not_live (hr.live hw) (signature?_iff.mp (hs'.plug.inner hin).1)
    · exact hs.copy.toHosts.not_live hw (signature?_iff.mp (hs.plug.inner hin).1)

include hs h hr hfills in
lemma map_slots : c'.slotsAt κ' (r'.slots hole') = (c.slotsAt κ (r.slots hole)).map (Slot.map (glue κ c r ι (κ' ∘ ιR))) :=
  slots_eq hfills h hr.sound.wellFormed.toFramed glue_host (glue_new hs.copy)

include hs hs' h hr hfills in
lemma map_spliced : (c'.slotsAt κ' (r'.slots hole')).flatMap (splicedBy g') =
    ((c.slotsAt κ (r.slots hole)).flatMap (splicedBy g)).map (glue κ c r ι (κ' ∘ ιR)) := by
  rw [hs.map_slots h hr hfills, flatMap_map, map_flatMap]
  exact flatMap_congr fun s hmem => splicedBy_map (copies_kind? hs.copy hs'.copy h hr)
    (hs.within hr.sound.wellFormed.toFramed h.valid s hmem)

include hs hs' h hr hinterior hfills

lemma map_live_iff (hw : g.Live w) : d'.graph.Live (glue κ c r ι (κ' ∘ ιR) w) ↔ d.graph.Live w := by
  have hframed := hr.sound.wellFormed.toFramed
  obtain ⟨n, hn⟩ := Graph.live_iff.mp hw
  obtain ⟨n', hn', _⟩ := copies_node hs.copy hs'.copy h hr hn
  rw [hs'.live_iff (live_of_get? hn'), hs.live_iff hw, hs.map_spliced hs' h hr hfills, hs.map_slots h hr hfills]
  refine not_congr (or_congr ⟨fun hmem => ?_, mem_map_of_mem⟩ (or_congr (hs.interior_iff hs' hr hinterior hw)
    (dropped_map_iff (copies_injective hs.copy hs'.copy h hr) (hs.within hframed h.valid) hw)))
  obtain ⟨x, hx, heq⟩ := mem_map.mp hmem
  rwa [← copies_injective hs.copy hs'.copy h hr (hs.live_of_spliced hframed h.valid hx) hw heq]

lemma carries : Carries g.Live (glue κ c r ι (κ' ∘ ιR)) d.graph.net d'.graph.net := by
  have hframed := hr.sound.wellFormed.toFramed
  have hsplices := hs'.cleared.splices
  rw [hs.map_spliced hs' h hr hfills, show (r'.slots hole').map _ = _ from hs.map_slots h hr hfills] at hsplices
  have hj := fun {v w} => copies_injective (v := v) (w := w) hs.copy hs'.copy h hr
  refine Carries.splices ?_ hj (fun w hw => hs.live_of_spliced hframed h.valid hw) hs.cleared.splices hsplices
  exact (copies_host hs.copy h).plug hj (hs.within hframed h.valid) (copies_guest hs.copy hr) (hs.interior_iff hs' hr hinterior)

lemma map_node {n : Node} (hn : d.graph.vertices.get? w = some n) :
    ∃ n', d'.graph.vertices.get? (glue κ c r ι (κ' ∘ ιR) w) = some n' ∧ n'.kind = n.kind ∧ n'.opgroup = n.opgroup := by
  obtain ⟨n0, hn0, rfl⟩ := hs.get?_cases hn
  have hw := live_of_get? hn0
  obtain ⟨n', hn', hkind, hog⟩ := copies_node hs.copy hs'.copy h hr hn0
  have hleft := (hs.map_live_iff hs' h hr hinterior hfills hw).mpr (live_of_get? hn)
  obtain ⟨hsplice, hwaste⟩ := not_or.mp ((hs'.live_iff (live_of_get? hn')).mp hleft)
  refine ⟨{ n' with kind := touched g' (c'.slotsAt κ' (r'.slots hole')) (glue κ c r ι (κ' ∘ ιR) w) n'.kind },
    by rw [hs'.cleared.stays hsplice hwaste, hn']; rfl, ?_, hog⟩
  rw [hs.map_slots h hr hfills, hkind]
  exact touched_map (copies_kind? hs.copy hs'.copy h hr) (copies_injective hs.copy hs'.copy h hr)
    (hs.within hr.sound.wellFormed.toFramed h.valid) hw _

/-- **Substitutions at matched operations of equivalent circuits give equivalent circuits.** -/
theorem equivalent (hd : d.Sound) (hd' : d'.Sound) : Equivalent (glue κ c r ι (κ' ∘ ιR)) d d' := by
  refine .of_made hd hd' ?_ (hs.map_node hs' h hr hinterior hfills)
    (fun m hm => (hs.carries hs' h hr hinterior hfills).link hm) (fun u => ?_) ?_ ?_ ?_
  · rw [hs.made_eq h.sound hd, hs'.made_eq h.sound' hd', copies_made hs.copy hs'.copy h hr, List.filter_map]
    refine congrArg _ (filter_congr fun w hw => Bool.eq_iff_iff.mpr ?_)
    exact hs.map_live_iff hs' h hr hinterior hfills ((mem_map_bySequence hs.copy.valid).mp hw)
  · rw [hs.boundary, hs'.boundary]
    exact (h.congr fun v hv => glue_host hv).boundary u
  · rw [hs.others, hs'.others]
    rw [h.phase, hr.phase]
  · rw [hs.others, hs'.others]
    exact h.name
  · rw [hs.others, hs'.others]
    rw [h.opgroups, hr.opgroups]

end Matched

end Substituted

/-- **Substitution at a vertex succeeds if there is a hole that the replacement suits**, and otherwise changes nothing. -/
theorem substituteVertex_cases (h : c.WellFormed) (hr : r.WellFormed) (v : Vertex) (policy : OpgroupPolicy) :
    (∃ hole d, c.holeAt v = .ok hole ∧ c.checkHole r hole = .ok () ∧ policy.check c.opgroups r.opgroups = .ok () ∧
      substituteVertex r v .delete policy c = .ok () d) ∨ ∃ e, substituteVertex r v .delete policy c = .error e c := by
  cases hhole : c.holeAt v with
  | error e => exact .inr ⟨e, bind_error (ask_of_error hhole)⟩
  | ok hole =>
    have hask : (ask (·.holeAt v) : Edit Hole) c = .ok hole c := ask_of_ok hhole
    cases hcheck : c.checkHole r hole with
    | error e => exact .inr ⟨e, (bind_ok hask).trans (bind_error (ask_of_error hcheck))⟩
    | ok a =>
      have hasked : (ask fun host => host.checkHole r hole : Edit Unit) c = .ok () c := ask_of_ok hcheck
      cases hpolicy : policy.check c.opgroups r.opgroups with
      | error e =>
        exact .inr ⟨e, (bind_ok hask).trans ((bind_ok hasked).trans (bind_error
          (bind_error (ask_of_error hpolicy))))⟩
      | ok b =>
        have hwired := h.wired
        obtain ⟨d, hrun, _⟩ := substitute_run hwired hr.wired (holeAt_isHole hwired hhole) hcheck hpolicy
          (not_leaks_single hwired hhole) .delete
        exact .inl ⟨hole, d, rfl, hcheck, rfl, (bind_ok hask).trans hrun⟩

lemma substituteVertex_sound (hr : r.WellFormed) (v : Vertex) (policy : OpgroupPolicy) :
    Keeps Sound (substituteVertex r v .delete policy) := by
  refine sound_keeps (fun c a d h hrun => ?_) (substituteVertex_lasts lasting_numbered r v .delete policy)
  obtain ⟨_, hhole, hrest⟩ := bind_ask_eq_ok.mp hrun
  obtain ⟨hsuits, _, _, g, _, _, hunit, hs⟩ := substitute_eq_ok h.wired hr.wired (holeAt_isHole h.wired hhole) hrest
  exact hs.wellFormed h.wired hr.wired hsuits hunit (convex_single h.wired hhole)

/-- **Matched operations of equivalent circuits can be replaced by equivalent circuits.** -/
theorem substituteVertex_mirrors (h : Equivalent ι c c') (hr : Equivalent ιR r r') (policy : OpgroupPolicy) :
    Mirrors ι c c' (fun _ => id) (substituteVertex r v .delete policy) (substituteVertex r' (ι v) .delete policy) := by
  intro a d hrun
  have hc := h.sound.wellFormed.wired
  have hc' := h.sound'.wellFormed.wired
  have hrw := hr.sound.wellFormed
  have hrw' := hr.sound'.wellFormed
  obtain ⟨_, hhole, hrest⟩ := bind_ask_eq_ok.mp hrun
  obtain ⟨hsuits, hpolicy, _, g, _, _, _, hs⟩ := substitute_eq_ok hc hrw.wired (holeAt_isHole hc hhole) hrest
  obtain ⟨_, hhole', hentries, hlength, hslots⟩ := h.exists_hole hhole
  have hfills := forall₂_fillsMatch hr hslots
  have hv := live_of_kind? (holeAt_eq_ok hhole).1.choose_spec.1
  have hcheck' := (h.suits hr hhole' hsuits hentries hlength hfills).checkHole_eq h.valid' hrw'.wired fun hin => by
    rw [(holeAt_interior hhole').mp hin]
    exact h.live hv
  rw [← h.opgroups, ← hr.opgroups] at hpolicy
  obtain ⟨d', hrun', _, hspec⟩ := substitute_run hc' hrw'.wired (holeAt_isHole hc' hhole') hcheck' hpolicy
    (not_leaks_single hc' hhole') .delete
  obtain ⟨_, _, _, _, hs'⟩ := hspec rfl
  have hrun'' : substituteVertex r' (ι v) .delete policy c' = .ok a d' := (bind_ok (ask_of_ok hhole')).trans hrun'
  refine ⟨_, d', hrun'', hs.equivalent hs' h hr (fun {w} hw => ?_) hfills
    (substituteVertex_sound hrw v policy _ _ _ h.sound hrun) (substituteVertex_sound hrw' _ policy _ _ _ h.sound' hrun''),
    fun w hw _ => glue_host hw⟩
  rw [holeAt_interior hhole', holeAt_interior hhole]
  exact h.live_iff hw hv

end Circuit

/-! # `Circuit.compacted` — a fresh copy of a circuit -/

/-! ## Compact stores -/

namespace SlotStore

variable {α : Type} {s : SlotStore α}

/-- **All slots hold a value, in their first generation.** -/
def Compact (s : SlotStore α) : Prop := s.free = [] ∧ s.generations = List.replicate s.size 0

instance : Decidable s.Compact := inferInstanceAs (Decidable (_ ∧ _))

lemma Compact.insert (h : s.Compact) (x : α) : (s.insert x).Compact := by
  obtain ⟨hfree, hgenerations⟩ := h
  simp [Compact, SlotStore.insert, size, hfree, hgenerations, List.replicate_succ']

end SlotStore

namespace Graph

def Compact (g : Graph) : Prop := g.vertices.Compact ∧ g.edges.Compact

instance {g : Graph} : Decidable g.Compact := inferInstanceAs (Decidable (_ ∧ _))

lemma addVertex_compact (kind : NodeKind) (og : Option String) : Keeps Compact (addVertex kind og) := by
  intro g v g' h hrun
  cases hrun
  exact ⟨h.1.insert _, h.2⟩

lemma addLink_compact (l : Link) : Keeps Compact (addLink l) := by
  refine ask_keeps.bind fun _ => ask_keeps.bind fun _ => ?_
  intro g e g' h hrun
  cases hrun
  exact ⟨h.1, h.2.insert _⟩

end Graph

/-! ## The copy -/

namespace Circuit

open Wireloom.Graph SortedMap

variable {c d : Circuit} {ι : Vertex → Vertex}

/-- The circuit copied into an empty one. -/
def compacted (c : Circuit) : Except CircuitError Circuit :=
  edited { name := c.name, phase := c.phase } (mergeIn c .merge)

lemma Chained.equivalent {host : Circuit} (hch : Chained ι host c d) (hgraph : host.graph = {})
    (hunits : ∀ u, host.boundary.get? u = none) (hc : c.Sound) (hd : d.Sound) (hphase : d.phase = c.phase)
    (hname : d.name = c.name) (hopgroups : d.opgroups = c.opgroups) : Equivalent ι c d := by
  have hstart : ∀ v, ¬ host.WasStart c v := by
    rintro v ⟨u, _, _, hu, _⟩
    rw [hunits] at hu
    cases hu
  have hspliced : ∀ v, ¬ host.Spliced c v := fun v h => hstart v h.1
  have hnode : ∀ {v n}, c.graph.vertices.get? v = some n →
      ∃ n', d.graph.vertices.get? (ι v) = some n' ∧ n'.kind = n.kind ∧ n'.opgroup = n.opgroup := by
    intro v n hn
    obtain ⟨n', hn', hog, hkind, _⟩ := hch.guest_node hn (hspliced v)
    exact ⟨n', hn', hkind (hstart v), hog⟩
  refine .of_made hc hd ?_ hnode (fun l hl => hch.guest_link hl (hspliced _)) (fun u => ?_) hphase hname hopgroups
  · have hmade := hch.made (hgraph ▸ lasting_sequenced.empty)
    rw [hgraph] at hmade
    refine hmade.trans (List.filter_eq_self.mpr fun w hw => ?_)
    obtain ⟨v, hv, rfl⟩ := List.mem_map.mp hw
    obtain ⟨n, hn⟩ := live_iff.mp ((mem_map_bySequence hc.wellFormed.valid).mp hv)
    obtain ⟨n', hn', _⟩ := hnode hn
    exact live_of_get? hn'
  · rw [hch.boundary, hunits]
    rfl

lemma compacted_run (h : c.Sound) : ∃ d κ, c.compacted = .ok d ∧ d.graph.Compact ∧ Equivalent κ c d := by
  let host : Circuit := { name := c.name, phase := c.phase }
  have hhost : host.WellFormed := wellFormed_empty rfl rfl
  have hmerge : host.checkMerge c = .ok () := except_forM_eq_ok.mpr fun _ _ => rfl
  have hagree : host.opgroups.Agree c.opgroups := fun _ _ _ hx => nomatch hx
  obtain ⟨copies, d, κ, hrun, hmerged⟩ :=
    mergeIn_run hhost.wired h.wellFormed.wired (OpgroupPolicy.check_merge_iff.mpr hagree) hmerge
  have hcompact : OnGraph Graph.Compact d := mergeIn_onGraph
    (copyIn_keeps addVertex_compact addLink_compact _ _) _ _ _ ⟨⟨rfl, rfl⟩, ⟨rfl, rfl⟩⟩ hrun
  have hnumbered := mergeIn_lasts lasting_numbered c .merge host _ _ lasting_numbered.empty hrun
  have hunion : host.opgroups.unionLeft c.opgroups = c.opgroups := by
    refine ext_get? fun k => ?_
    rw [get?_unionLeft]
    rfl
  refine ⟨d, κ, edited_eq_ok.mpr ⟨copies, hrun⟩, hcompact, (hmerged.chained hmerge).equivalent rfl (fun _ => rfl) h
    ⟨hmerged.wellFormed, hnumbered⟩ ?_ ?_ ?_⟩
  · rw [hmerged.others]
  · rw [hmerged.others]
  · rw [hmerged.others]
    exact hunion

/-! # `Circuit.Lockstep` — changes of equivalent circuits -/

variable {c' d' : Circuit} {ι' κ : Vertex → Vertex} {v v' : Vertex} {α : Type}

/-! ## Changes -/

/-- A call that changes a circuit, or makes a circuit of it. -/
inductive Change where
  | addUnit (u : UnitId)
  | createQubit (u : UnitId)
  | discardQubit (u : UnitId)
  | addOp (op : Op) (args : List UnitId) (opgroup : Option String)
  | removeOp (v : Vertex)
  | renameUnits (ρ : Renaming)
  | flattenRegisters
  | removeBlankWires
  | bindSymbols (σ : Binding)
  | append (guest : Circuit) (ρ : Renaming)
  | parallel (guest : Circuit)
  | dagger
  | conditioned (bits : List UnitId) (value : Nat)
  | substituteVertex (replacement : Circuit) (v : Vertex) (policy : OpgroupPolicy)

inductive Answer where
  | done
  | vertex (v : Vertex)
  | changed (b : Bool)
  | renaming (ρ : Renaming)
  | units (us : List UnitId)

def Answer.move (κ : Vertex → Vertex) : Answer → Answer
  | .vertex v => .vertex (κ v)
  | answer => answer

/-- An edit with what it gives as an answer. -/
def answering (f : α → Answer) (edit : Edit α) : Edit Answer := do
  return f (← edit)

/-- A circuit made from the circuit takes its place. -/
def remaking (make : Circuit → Except CircuitError Circuit) : Edit Answer :=
  revise fun c => do
    return (.done, ← make c)

namespace Change

/-- The change as an edit. A circuit that is made from another one takes its place. -/
def run : Change → Edit Answer
  | addUnit u => answering (fun _ => .done) (Circuit.addUnit u)
  | createQubit u => answering (fun _ => .done) (Circuit.createQubit u)
  | discardQubit u => answering (fun _ => .done) (Circuit.discardQubit u)
  | addOp op args opgroup => answering .vertex (Circuit.addOp op args opgroup)
  | removeOp v => answering (fun _ => .done) (Circuit.removeOp v)
  | renameUnits ρ => answering .changed (Circuit.renameUnits ρ)
  | flattenRegisters => answering .renaming Circuit.flattenRegisters
  | removeBlankWires => answering .units Circuit.removeBlankWires
  | bindSymbols σ => answering (fun _ => .done) (modify (·.bindSymbols σ))
  | append guest ρ => answering (fun _ => .done) (Circuit.appendRenamed guest ρ)
  | parallel guest => remaking (·.parallel guest)
  | dagger => remaking Circuit.dagger
  | conditioned bits value => remaking (·.conditioned bits value)
  | substituteVertex r v policy => answering (fun _ => .done) (Circuit.substituteVertex r v .delete policy)

/-- The change edits the circuit itself, so that handles of its vertices stay in use. -/
def InPlace : Change → Prop
  | parallel _ | dagger | conditioned _ _ => False
  | _ => True

/-- The change names no vertex and no other circuit. -/
def Plain : Change → Prop
  | removeOp _ | append _ _ | parallel _ | substituteVertex _ _ _ => False
  | _ => True

/-- The circuit that the change names is sound. -/
def GuestSound : Change → Prop
  | append guest _ | parallel guest | substituteVertex guest _ _ => guest.Sound
  | _ => True

end Change

/-! ## Changes that are alike -/

/-- **`v'` stands for `v`**: the two are matched, or neither is live. -/
def StandsFor (ι : Vertex → Vertex) (c c' : Circuit) (v v' : Vertex) : Prop :=
  (c.graph.Live v ∧ v' = ι v) ∨ (¬ c.graph.Live v ∧ ¬ c'.graph.Live v')

lemma StandsFor.symm (h : Equivalent ι c c') (hback : ∀ v, c.graph.Live v → ι' (ι v) = v)
    (hv : StandsFor ι c c' v v') : StandsFor ι' c' c v' v := by
  rcases hv with ⟨hlive, rfl⟩ | ⟨hdead, hdead'⟩
  · exact .inl ⟨h.live hlive, (hback v hlive).symm⟩
  · exact .inr ⟨hdead', hdead⟩

lemma Equivalent.exists_standsFor (h : Equivalent ι c c') (v : Vertex) : ∃ v', StandsFor ι c c' v v' := by
  by_cases hv : c.graph.Live v
  · exact ⟨ι v, .inl ⟨hv, rfl⟩⟩
  · exact ⟨c'.graph.vertices.nextHandle, .inr ⟨hv, Graph.not_live_nextHandle h.valid'⟩⟩

namespace Change

variable {x x' : Change} {a : Answer}

/-- **Two changes are alike**: one names what stands for the vertices of the other, and equivalent circuits. -/
inductive Alike (ι : Vertex → Vertex) (c c' : Circuit) : Change → Change → Prop
  | plain {x : Change} : x.Plain → Alike ι c c' x x
  | removeOp {v v' : Vertex} : StandsFor ι c c' v v' → Alike ι c c' (removeOp v) (removeOp v')
  | append {guest guest' : Circuit} {ιG : Vertex → Vertex} (ρ : Renaming) : Equivalent ιG guest guest' →
      Alike ι c c' (append guest ρ) (append guest' ρ)
  | parallel {guest guest' : Circuit} {ιG : Vertex → Vertex} : Equivalent ιG guest guest' →
      Alike ι c c' (parallel guest) (parallel guest')
  | substituteVertex {r r' : Circuit} {ιR : Vertex → Vertex} {v v' : Vertex} (policy : OpgroupPolicy) :
      Equivalent ιR r r' → StandsFor ι c c' v v' → Alike ι c c' (substituteVertex r v policy) (substituteVertex r' v' policy)

lemma Alike.symm (h : Equivalent ι c c') (hback : ∀ v, c.graph.Live v → ι' (ι v) = v) (hx : Alike ι c c' x x') :
    Alike ι' c' c x' x := by
  cases hx with
  | plain hplain => exact .plain hplain
  | removeOp hv => exact .removeOp (hv.symm h hback)
  | append ρ hG =>
    obtain ⟨_, hG', _⟩ := hG.symm
    exact .append ρ hG'
  | parallel hG =>
    obtain ⟨_, hG', _⟩ := hG.symm
    exact .parallel hG'
  | substituteVertex policy hr hv =>
    obtain ⟨_, hr', _⟩ := hr.symm
    exact .substituteVertex policy hr' (hv.symm h hback)

lemma Alike.guestSound (hx : Alike ι c c' x x') : x.GuestSound := by
  cases hx with
  | plain hplain => cases x <;> first | exact hplain.elim | exact trivial
  | removeOp _ => exact trivial
  | append _ hG => exact hG.sound
  | parallel hG => exact hG.sound
  | substituteVertex _ hr _ => exact hr.sound

lemma exists_alike (h : Equivalent ι c c') (hx : x.GuestSound) : ∃ x', Alike ι c c' x x' := by
  cases x with
  | removeOp v =>
    obtain ⟨v', hv⟩ := h.exists_standsFor v
    exact ⟨_, .removeOp hv⟩
  | append guest ρ => exact ⟨_, .append ρ (.refl hx)⟩
  | parallel guest => exact ⟨_, .parallel (.refl hx)⟩
  | substituteVertex r v policy =>
    obtain ⟨v', hv⟩ := h.exists_standsFor v
    exact ⟨_, .substituteVertex policy (.refl hx) hv⟩
  | _ => exact ⟨_, .plain trivial⟩

end Change

/-! ## A change that fails changes nothing -/

lemma Atomic.answering {edit : Edit α} (h : Atomic edit c) (f : α → Answer) : Atomic (answering f edit) c := by
  intro e d hrun
  rcases bind_eq_error.mp hrun with herror | ⟨a, _, _, hpure⟩
  · exact h e d herror
  · cases hpure

lemma atomic_revise (change : Circuit → Except CircuitError (α × Circuit)) (c : Circuit) : Atomic (revise change) c := by
  intro e d hrun
  unfold revise at hrun
  split at hrun
  · cases hrun
  · cases hrun
    rfl

lemma Side.mark_atomic (h : c.Framed) (s : Side) (u : UnitId) : Atomic (s.mark u) c := by
  rcases Side.mark_cases h s u with ⟨_, _, _, hok⟩ | ⟨e, herror⟩
  · exact .of_ok hok
  · exact .of_error herror

lemma addOp_atomic (h : c.WellFormed) (op : Op) (args : List UnitId) (og : Option String) : Atomic (addOp op args og) c := by
  by_cases haccepts : c.Accepts op args og
  · obtain ⟨_, _, hok, _⟩ := haccepts.run h.wired
    exact .of_ok hok
  · obtain ⟨e, herror⟩ := addOp_of_not_accepts haccepts
    exact .of_error herror

lemma removeOp_atomic (h : c.WellFormed) (v : Vertex) : Atomic (removeOp v) c := by
  by_cases hop : ∃ op, c.graph.kind? v = some (.op op)
  · obtain ⟨op, hop⟩ := hop
    obtain ⟨g, hok, _⟩ := removeOp_run h.wired hop
    exact .of_ok hok
  · obtain ⟨e, herror⟩ := removeOp_error fun op hk => hop ⟨op, hk⟩
    exact .of_error herror

lemma Change.atomic {x : Change} (h : c.WellFormed) (hx : x.GuestSound) : Atomic x.run c := by
  cases x with
  | addUnit u =>
    refine Atomic.answering ?_ _
    rcases addUnit_cases u c with ⟨_, _, hok⟩ | ⟨e, herror⟩
    · exact .of_ok hok
    · exact .of_error herror
  | createQubit u => exact (Side.mark_atomic h.toFramed .first u).answering _
  | discardQubit u => exact (Side.mark_atomic h.toFramed .last u).answering _
  | addOp op args og => exact (addOp_atomic h op args og).answering _
  | removeOp v => exact (removeOp_atomic h v).answering _
  | renameUnits ρ => exact (atomic_revise _ c).answering _
  | flattenRegisters =>
    refine Atomic.answering (fun e d hrun => ?_) _
    have hget : (get : Edit Circuit) c = .ok c c := rfl
    rcases bind_eq_error.mp ((bind_ok hget).symm.trans hrun) with herror | ⟨_, _, _, hpure⟩
    · exact atomic_revise _ c e d herror
    · cases hpure
  | removeBlankWires =>
    obtain ⟨d, hok, _⟩ := removeBlankWires_run h.wired
    exact (Atomic.of_ok hok).answering _
  | bindSymbols σ =>
    have hok : (modify (·.bindSymbols σ) : Edit Unit) c = .ok () (c.bindSymbols σ) := rfl
    exact (Atomic.of_ok hok).answering _
  | append guest ρ =>
    refine Atomic.answering ?_ _
    rcases appendRenamed_cases h hx.wellFormed ρ with ⟨_, _, _, _, _, _, hok, _⟩ | ⟨_, e, herror⟩
    · exact .of_ok hok
    · exact .of_error herror
  | parallel guest => exact atomic_revise _ c
  | dagger => exact atomic_revise _ c
  | conditioned bits value => exact atomic_revise _ c
  | substituteVertex r v policy =>
    refine Atomic.answering ?_ _
    rcases substituteVertex_cases h hx.wellFormed v policy with ⟨_, _, _, _, _, hok⟩ | ⟨e, herror⟩
    · exact .of_ok hok
    · exact .of_error herror

/-! ## Changes that are alike agree -/

namespace Change

variable {x x' : Change} {xs : List Change}

/-- `x'` succeeds on `c'` where `x` does so on `c`, with the same answer and an equivalent circuit. Vertices of a circuit
    that is edited itself are matched as before. -/
def Mirrored (ι : Vertex → Vertex) (c c' : Circuit) (x x' : Change) : Prop :=
  ∀ a d, x.run c = .ok a d → ∃ κ d', x'.run c' = .ok (a.move κ) d' ∧ Equivalent κ d d' ∧
    (x.InPlace → ∀ v, c.graph.Live v → d.graph.Live v → κ v = ι v)

lemma mirrored_of_edit {edit edit' : Edit α} {f : α → Answer} {move : (Vertex → Vertex) → α → α}
    (hx : x.run = answering f edit) (hx' : x'.run = answering f edit') (hf : ∀ κ a, (f a).move κ = f (move κ a))
    (h : Mirrors ι c c' move edit edit') : Mirrored ι c c' x x' := by
  intro a d hrun
  rw [hx] at hrun
  obtain ⟨b, _, hedit, hpure⟩ := bind_eq_ok.mp hrun
  cases hpure
  obtain ⟨κ, d', hedit', heq, hκ⟩ := h b d hedit
  refine ⟨κ, d', ?_, heq, fun _ => hκ⟩
  rw [hx', hf]
  exact bind_ok hedit'

lemma mirrored_of_make {make make' : Circuit → Except CircuitError Circuit} (hx : x.run = remaking make)
    (hx' : x'.run = remaking make') (hnew : ¬ x.InPlace)
    (h : ∀ d, make c = .ok d → ∃ κ d', make' c' = .ok d' ∧ Equivalent κ d d') : Mirrored ι c c' x x' := by
  intro a d hrun
  rw [hx] at hrun
  obtain ⟨_, hmake, hpure⟩ := bind_ok_iff.mp (revise_eq_ok.mp hrun)
  cases hpure
  obtain ⟨κ, d', hmake', heq⟩ := h d hmake
  refine ⟨κ, d', ?_, heq, fun hin => absurd hin hnew⟩
  rw [hx']
  exact revise_eq_ok.mpr (except_bind_ok hmake' rfl)

lemma mirrored_of_plain (h : Equivalent ι c c') (hx : x.Plain) : Mirrored ι c c' x x := by
  cases x with
  | addUnit u => exact mirrored_of_edit rfl rfl (fun _ _ => rfl) (addUnit_mirrors h u)
  | createQubit u => exact mirrored_of_edit rfl rfl (fun _ _ => rfl) (Side.mark_mirrors h .first u)
  | discardQubit u => exact mirrored_of_edit rfl rfl (fun _ _ => rfl) (Side.mark_mirrors h .last u)
  | addOp op args og => exact mirrored_of_edit rfl rfl (fun _ _ => rfl) (addOp_mirrors h op args og)
  | renameUnits ρ => exact mirrored_of_edit rfl rfl (fun _ _ => rfl) (renameUnits_mirrors h ρ)
  | flattenRegisters => exact mirrored_of_edit rfl rfl (fun _ _ => rfl) (flattenRegisters_mirrors h)
  | removeBlankWires => exact mirrored_of_edit rfl rfl (fun _ _ => rfl) (removeBlankWires_mirrors h)
  | bindSymbols σ => exact mirrored_of_edit rfl rfl (fun _ _ => rfl) (bindSymbols_mirrors h σ)
  | dagger => exact mirrored_of_make rfl rfl not_false fun _ => dagger_mirrors h
  | conditioned bits value =>
    refine mirrored_of_make rfl rfl not_false fun d hd => ?_
    exact ⟨id, d, (h.conditioned_eq bits value).trans hd, .refl (conditioned_sound hd)⟩
  | removeOp v => exact hx.elim
  | append guest ρ => exact hx.elim
  | parallel guest => exact hx.elim
  | substituteVertex r v policy => exact hx.elim

lemma mirrored (h : Equivalent ι c c') (hx : Alike ι c c' x x') : Mirrored ι c c' x x' := by
  cases hx with
  | plain hplain => exact mirrored_of_plain h hplain
  | removeOp hv =>
    rcases hv with ⟨hlive, rfl⟩ | ⟨hdead, _⟩
    · exact mirrored_of_edit rfl rfl (fun _ _ => rfl) (removeOp_mirrors h hlive)
    · intro a d hrun
      obtain ⟨_, _, hedit, _⟩ := bind_eq_ok.mp hrun
      obtain ⟨e, herror⟩ := removeOp_error fun op hk => hdead (Graph.live_of_kind? hk)
      cases herror.symm.trans hedit
  | append ρ hG => exact mirrored_of_edit rfl rfl (fun _ _ => rfl) (appendRenamed_mirrors h hG ρ)
  | parallel hG => exact mirrored_of_make rfl rfl not_false fun _ => parallel_mirrors h hG
  | substituteVertex policy hr hv =>
    rcases hv with ⟨_, rfl⟩ | ⟨hdead, _⟩
    · exact mirrored_of_edit rfl rfl (fun _ _ => rfl) (substituteVertex_mirrors h hr policy)
    · intro a d hrun
      obtain ⟨_, _, hedit, _⟩ := bind_eq_ok.mp hrun
      obtain ⟨_, _, hask, _⟩ := bind_eq_ok.mp hedit
      obtain ⟨⟨k, hk, _⟩, _⟩ := holeAt_eq_ok (ask_eq_ok.mp hask).1
      exact absurd (Graph.live_of_kind? hk) hdead

/-- **Two changes agree**: both succeed, with the same answer and equivalent circuits, or both fail and change nothing. -/
def Agree (ι : Vertex → Vertex) (c c' : Circuit) (x x' : Change) : Prop :=
  (∃ κ a d d', x.run c = .ok a d ∧ x'.run c' = .ok (a.move κ) d' ∧ Equivalent κ d d' ∧
    (x.InPlace → ∀ v, c.graph.Live v → d.graph.Live v → κ v = ι v)) ∨
  ∃ e e', x.run c = .error e c ∧ x'.run c' = .error e' c'

lemma agree_of_alike (h : Equivalent ι c c') (hx : Alike ι c c' x x') : Agree ι c c' x x' := by
  obtain ⟨_, h', hback, _⟩ := h.symm
  have hx' := hx.symm h hback
  cases hrun : x.run c with
  | ok a d =>
    obtain ⟨κ, d', hrun', heq, hκ⟩ := mirrored h hx a d hrun
    exact .inl ⟨κ, a, d, d', hrun, hrun', heq, hκ⟩
  | error e d =>
    right
    cases atomic h.sound.wellFormed hx.guestSound e d hrun
    cases hrun' : x'.run c' with
    | ok a d' =>
      -- the other change would have been mirrored by this one
      obtain ⟨κ, d, hback, _⟩ := mirrored h' hx' a d' hrun'
      cases hback.symm.trans hrun
    | error e' d' =>
      cases atomic h.sound'.wellFormed hx'.guestSound e' d' hrun'
      exact ⟨e, e', hrun, rfl⟩

end Change

/-! ## Runs -/

/-- **Two lists of changes run in lockstep**: from equivalent circuits, step by step, they succeed with the same answers
    or fail together, and the circuits stay equivalent. -/
inductive Lockstep : (Vertex → Vertex) → Circuit → Circuit → List Change → List Change → Prop
  | nil {ι : Vertex → Vertex} {c c' : Circuit} : Equivalent ι c c' → Lockstep ι c c' [] []
  | ok {ι κ : Vertex → Vertex} {c c' d d' : Circuit} {x x' : Change} {xs xs' : List Change} {a : Answer} :
      Equivalent ι c c' → x.Alike ι c c' x' → x.run c = .ok a d → x'.run c' = .ok (a.move κ) d' →
      (x.InPlace → ∀ v, c.graph.Live v → d.graph.Live v → κ v = ι v) → Lockstep κ d d' xs xs' →
      Lockstep ι c c' (x :: xs) (x' :: xs')
  | error {ι : Vertex → Vertex} {c c' : Circuit} {x x' : Change} {xs xs' : List Change} {e e' : CircuitError} :
      Equivalent ι c c' → x.Alike ι c c' x' → x.run c = .error e c → x'.run c' = .error e' c' →
      Lockstep ι c c' xs xs' → Lockstep ι c c' (x :: xs) (x' :: xs')

lemma Equivalent.exists_lockstep {xs : List Change} (h : Equivalent ι c c') (hxs : ∀ x ∈ xs, x.GuestSound) :
    ∃ xs', Lockstep ι c c' xs xs' := by
  induction xs generalizing ι c c' with
  | nil => exact ⟨[], .nil h⟩
  | cons x rest ih =>
    obtain ⟨hx, hrest⟩ := List.forall_mem_cons.mp hxs
    obtain ⟨x', hx'⟩ := Change.exists_alike h hx
    rcases Change.agree_of_alike h hx' with ⟨_, a, d, _, hrun, hrun', heq, hκ⟩ | ⟨e, _, hrun, hrun'⟩
    · obtain ⟨rest', hstep⟩ := ih heq hrest
      exact ⟨x' :: rest', .ok h hx' hrun hrun' hκ hstep⟩
    · obtain ⟨rest', hstep⟩ := ih h hrest
      exact ⟨x' :: rest', .error h hx' hrun hrun' hstep⟩

/-- **Slots and generations cannot be observed.** Equivalent circuits have the same commands, and changes of them that are
    alike agree. In particular a circuit and its compact copy run in lockstep, whatever was done to the circuit before. -/
theorem storage_unobservable (h : Equivalent ι c c') : c'.commands = c.commands.map (Command.move id ι) ∧
    (∀ x x' : Change, x.Alike ι c c' x' → x.Agree ι c c' x') ∧
    ∃ d κ, c.compacted = .ok d ∧ d.graph.Compact ∧ Equivalent κ c d ∧
      ∀ xs : List Change, (∀ x ∈ xs, x.GuestSound) → ∃ xs', Lockstep κ c d xs xs' := by
  obtain ⟨d, κ, hrun, hcompact, heq⟩ := compacted_run h.sound
  exact ⟨h.commands_eq, fun x x' hx => Change.agree_of_alike h hx, d, κ, hrun, hcompact, heq, fun xs hxs =>
    heq.exists_lockstep hxs⟩

/-- A measurement that was taken out and put in again leaves its trace in the circuit, but not in the copy. -/
theorem storage_unobservable_remeasured : ∃ c d κ, (ofUnits 1 1).edited (do
      removeOp (← addOp .measure [.qubit 0, .bit 0] none)
      discard (addOp .measure [.qubit 0, .bit 0] none)) = .ok c ∧ c.commands.length = 1 ∧ ¬ c.graph.Compact ∧
    c.compacted = .ok d ∧ d.graph.Compact ∧ Equivalent κ c d ∧ d.commands = c.commands.map (Command.move id κ) ∧
    ∀ x x' : Change, x.Alike κ c d x' → x.Agree κ c d x' := by
  simp only [exists_and_left]
  refine exists_run fun c hc => ?_
  obtain ⟨_, hrun⟩ := edited_eq_ok.mp hc
  obtain ⟨v, c₁, hadd, hrest⟩ := bind_eq_ok.mp hrun
  obtain ⟨_, c₂, hremove, hagain⟩ := bind_eq_ok.mp hrest
  obtain ⟨w, hagain⟩ := discard_eq_ok.mp hagain
  have hreachable : Reachable c := .addOp (.removeOp (.addOp (.ofUnits 1 1) hadd) hremove) hagain
  obtain ⟨d, κ, hd, hcompact, heq⟩ := compacted_run hreachable.sound
  obtain ⟨hcommands, hagree, _⟩ := storage_unobservable heq
  exact ⟨of_run hc (by decide +kernel), of_run hc (by decide +kernel), d, hd, hcompact, κ, heq, hcommands, hagree⟩

end Wireloom.Circuit
