import Wireloom.Circuit.Units
import Wireloom.Proofs.Build

/-!
# `Net.off`, `Circuit.rename` — renaming and removing units

Renaming carries the names of the pins along. A blank wire stands by itself, so that taking it out leaves all other
wires as they were.
-/

namespace Wireloom

open List SlotStore Wireloom.Graph

/-- The link has an end among the vertices. -/
def Link.Touches (l : Link) (D : Vertex → Prop) : Prop := D l.source.vertex ∨ D l.target.vertex

namespace Net

@[ext] lemma ext {N N' : Net} (hsig : ∀ v, N.signature? v = N'.signature? v) (hlink : ∀ l, N.link l ↔ N'.link l) :
    N = N' := by
  obtain ⟨_, _⟩ := N'
  cases funext hsig
  cases funext fun l => propext (hlink l)
  rfl

variable {N N' N'' : Net} {unit : Pin → UnitId} {first last D S : Vertex → Prop} {v w : Vertex} {vs : List Vertex}
  {a b l m : Link} {p q : Pin}

/-! ## Several splices -/

/-- **Wires run through the net, and its links close no cycle.** -/
structure Running {α : Type} [Preorder α] (N : Net) (unit : Pin → UnitId) (first last : Vertex → Prop)
    (rank : Vertex → α) : Prop where
  threaded : N.Threaded unit
  complete : N.Complete first last
  climbs : N.Climbs rank

/-- **`N'` is `N` with the vertices of a list spliced out**, one after the other. -/
inductive Splices : Net → List Vertex → Net → Prop
  | nil {N : Net} : Splices N [] N
  | cons {N N' N'' : Net} {v : Vertex} {vs : List Vertex} :
      N.IsSplice v N' → Splices N' vs N'' → Splices N (v :: vs) N''

section Rank

variable {α : Type} [Preorder α] {rank : Vertex → α}

lemma Climbs.splice (h : N.Climbs rank) (hs : N.IsSplice v N') : N'.Climbs rank := by
  intro m hm
  rcases hs.cases hm with ⟨hm, _⟩ | ⟨a, b, ha, hb, _, _, hba, hms, hmt, _⟩
  · exact h m hm
  · calc rank m.source.vertex = rank a.source.vertex := by rw [hms]
      _ < rank a.target.vertex := h a ha
      _ = rank b.source.vertex := by rw [hba]
      _ < rank b.target.vertex := h b hb
      _ = rank m.target.vertex := by rw [hmt]

lemma Running.splice (h : N.Running unit first last rank) (hs : N.IsSplice v N') (hvf : ¬ first v)
    (hvl : ¬ last v) : N'.Running unit first last rank where
  threaded := h.threaded.splice hs h.climbs.no_return
  complete := h.complete.splice hs h.threaded.toFitted h.climbs.no_return hvf hvl
  climbs := h.climbs.splice hs

lemma Running.splices (h : N.Running unit first last rank) (hs : N.Splices vs N')
    (hvs : ∀ v ∈ vs, ¬ first v ∧ ¬ last v) : N'.Running unit first last rank := by
  induction hs with
  | nil => exact h
  | @cons N N1 N2 v vs hv _ ih =>
    obtain ⟨hvf, hvl⟩ := hvs v mem_cons_self
    exact ih (h.splice hv hvf hvl) fun w hw => hvs w (mem_cons_of_mem _ hw)

lemma Ranked.splices (hr : N.Ranked rank) (hs : N.Splices vs N') (h : N.Fitted) : N'.Ranked rank := by
  induction hs with
  | nil => exact hr
  | cons hv _ ih => exact ih (hr.splice hv h) (h.splice hv hr.climbs.no_return)

end Rank

/-! ## Wires alone -/

/-- **Wires run through the net**, each along pins of growing rank. Apart from its wires the net may close a cycle,
    and a vertex may read a wire that it also writes. -/
structure Strung {α : Type} [Preorder α] (N : Net) (unit : Pin → UnitId) (first last : Vertex → Prop)
    (rank : Pin → α) : Prop where
  fitted : N.Fitted
  complete : N.Complete first last
  same_unit : ∀ {l}, N.link l → l.kind.isLinear = true → unit l.source = unit l.target
  climbs : ∀ {l}, N.link l → l.kind.isLinear = true → rank l.source < rank l.target

/-- The vertex has a single pin, on a wire that goes on from it. -/
def Single (N : Net) (v : Vertex) : Prop := ∃ k, N.signature? v = some [k] ∧ k.isLinear = true

section Pins

variable {α : Type} [Preorder α] {rank : Pin → α}

lemma Running.strung {rank : Vertex → α} (h : N.Running unit first last rank) :
    N.Strung unit first last fun p => rank p.vertex where
  fitted := h.threaded.toFitted
  complete := h.complete
  same_unit := h.threaded.same_unit
  climbs {l} hl _ := h.climbs l hl

lemma Single.splice (h : N.Single w) (hs : N.IsSplice v N') (hw : w ≠ v) : N'.Single w := by
  obtain ⟨k, hk, hlin⟩ := h
  exact ⟨k, by rw [hs.signature, if_neg hw, hk], hlin⟩

lemma Strung.no_return (h : N.Strung unit first last rank) (hv : N.Single v) (l : Link) (hl : N.link l)
    (hs : l.source.vertex = v) : l.target.vertex ≠ v := by
  intro ht
  obtain ⟨k, hk, hlin⟩ := hv
  have hsource := pin_of_single (by rw [hs]; exact hk) (h.fitted.source_wire hl)
  have htarget := pin_of_single (by rw [ht]; exact hk) (h.fitted.target_wire hl)
  have hsame : l.source = l.target := by rw [hsource.1, htarget.1, hs, ht]
  have hlt := h.climbs hl (by rw [htarget.2]; exact hlin)
  rw [hsame] at hlt
  exact lt_irrefl _ hlt

lemma Strung.splice (h : N.Strung unit first last rank) (hs : N.IsSplice v N') (hv : N.Single v) (hvf : ¬ first v)
    (hvl : ¬ last v) : N'.Strung unit first last rank where
  fitted := h.fitted.splice hs (h.no_return hv)
  complete := h.complete.splice hs h.fitted (h.no_return hv) hvf hvl
  same_unit := hs.same_unit h.same_unit
  climbs {m} hm hlin := by
    rcases hs.cases hm with ⟨hm, _⟩ | ⟨a, b, ha, hb, _, hal, hba, hms, hmt, hk⟩
    · exact h.climbs hm hlin
    · have hbl : b.kind.isLinear := by
        rcases hk with ⟨hbl, _⟩ | ⟨_, _, hmk⟩
        · exact hbl
        · exact absurd hmk (WireKind.ne_boolean hlin)
      calc rank m.source = rank a.source := by rw [hms]
        _ < rank a.target := h.climbs ha hal
        _ = rank b.source := by rw [hba]
        _ < rank b.target := h.climbs hb hbl
        _ = rank m.target := by rw [hmt]

lemma Strung.splices (h : N.Strung unit first last rank) (hs : N.Splices vs N') (hnodup : vs.Nodup)
    (hvs : ∀ v ∈ vs, N.Single v ∧ ¬ first v ∧ ¬ last v) : N'.Strung unit first last rank := by
  induction hs with
  | nil => exact h
  | @cons N N1 N2 v vs hv _ ih =>
    obtain ⟨hnot, hnodup⟩ := nodup_cons.mp hnodup
    obtain ⟨hsingle, hvf, hvl⟩ := hvs v mem_cons_self
    refine ih (h.splice hv hsingle hvf hvl) hnodup fun w hw => ?_
    obtain ⟨hw1, hw2⟩ := hvs w (mem_cons_of_mem _ hw)
    exact ⟨hw1.splice hv fun heq => hnot (heq ▸ hw), hw2⟩

end Pins

/-! ## A part that stands aside -/

open Classical in
/-- The net without some vertices and the links at them. -/
noncomputable def off (N : Net) (D : Vertex → Prop) : Net where
  signature? v := if D v then none else N.signature? v
  link l := N.link l ∧ ¬ l.Touches D

lemma signature_off_of_mem (h : D v) : (N.off D).signature? v = none := if_pos h

lemma signature_off_of_not_mem (h : ¬ D v) : (N.off D).signature? v = N.signature? v := if_neg h

lemma off_of_empty (h : ∀ v, ¬ D v) : N.off D = N :=
  ext (fun v => signature_off_of_not_mem (h v)) fun _ => and_iff_left fun hl => hl.elim (h _) (h _)

lemma Threaded.off (h : N.Threaded unit) : (N.off D).Threaded unit :=
  h.mono (fun _ hl => hl.1) fun _ hl =>
    ⟨wireAt_congr (signature_off_of_not_mem fun hs => hl.2 (.inl hs)),
      wireAt_congr (signature_off_of_not_mem fun ht => hl.2 (.inr ht))⟩

lemma Complete.off (h : N.Complete first last) (hclosed : ∀ {l}, N.link l → (D l.source.vertex ↔ D l.target.vertex)) :
    (N.off D).Complete (fun v => first v ∧ ¬ D v) (fun v => last v ∧ ¬ D v) := by
  have hwire : ∀ {p k}, (N.off D).wireAt p = some k → ¬ D p.vertex ∧ N.wireAt p = some k := by
    intro p k hp
    have hv : ¬ D p.vertex := by
      intro hv
      have hsome := signature?_of_wireAt hp
      rw [signature_off_of_mem hv] at hsome
      cases hsome
    exact ⟨hv, (wireAt_congr (signature_off_of_not_mem hv)).symm.trans hp⟩
  have hkept : ∀ {l}, N.link l → ¬ D l.source.vertex → (N.off D).link l := fun hl hs =>
    ⟨hl, not_or.mpr ⟨hs, fun ht => hs ((hclosed hl).mpr ht)⟩⟩
  refine ⟨fun {p k} hp => ?_, fun {p k} hp hlin => ?_, fun hl hlast => h.source_open hl.1 hlast.1, ?_, ?_⟩
  · obtain ⟨hv, hp⟩ := hwire hp
    have hfed : (N.off D).Fed p ↔ N.Fed p := by
      refine ⟨fun ⟨l, hl, ht⟩ => ⟨l, hl.1, ht⟩, ?_⟩
      rintro ⟨l, hl, rfl⟩
      exact ⟨l, hkept hl fun hs => hv ((hclosed hl).mp hs), rfl⟩
    rw [hfed, h.fed_iff hp, and_iff_left hv]
  · obtain ⟨hv, hp⟩ := hwire hp
    have hdrained : (N.off D).Drained p ↔ N.Drained p := by
      refine ⟨fun ⟨l, hl, hll, hs⟩ => ⟨l, hl.1, hll, hs⟩, ?_⟩
      rintro ⟨l, hl, hll, rfl⟩
      exact ⟨l, hkept hl hv, hll, rfl⟩
    rw [hdrained, h.drained_iff hp hlin, and_iff_left hv]
  · rintro v ⟨hv, hnot⟩
    rw [signature_off_of_not_mem hnot]
    exact h.first_wire hv
  · rintro v ⟨hv, hnot⟩
    rw [signature_off_of_not_mem hnot]
    exact h.last_wire hv

/-- **The part `D` of a net stands aside from `S`**: its links do not lead to or from `S`, and no wire from `S` leads
    to a pin that they lead to. -/
structure Aside (N : Net) (D S : Vertex → Prop) : Prop where
  ends : ∀ {l}, N.link l → l.Touches D → ¬ l.Touches S
  beyond : ∀ {l b}, N.link l → l.Touches D → N.link b → b.target = l.target → ¬ S b.source.vertex
  no_loop : ∀ {l}, N.link l → l.Touches D → l.source.vertex ≠ l.target.vertex

lemma Aside.of_empty (h : ∀ v, ¬ D v) : N.Aside D S where
  ends _ hD := absurd hD fun hD => hD.elim (h _) (h _)
  beyond _ hD := absurd hD fun hD => hD.elim (h _) (h _)
  no_loop _ hD := absurd hD fun hD => hD.elim (h _) (h _)

section

variable (h : N.Aside D S)
include h

lemma Aside.not_touches (hl : N.link l) (hS : l.Touches S) : ¬ l.Touches D := fun hD =>
  h.ends hl hD hS

lemma Aside.off_link (hl : N.link l) (hS : l.Touches S) : (N.off D).link l :=
  ⟨hl, h.not_touches hl hS⟩

lemma Aside.spliceable (hv : S v) (hoff : (N.off D).Spliceable v) : N.Spliceable v where
  no_loop l hl hs := hoff.no_loop l (h.off_link hl (.inl (hs ▸ hv))) hs
  in_unique l m hl hm ht heq := hoff.in_unique l m (h.off_link hl (.inr (ht ▸ hv)))
    (h.off_link hm (.inr (by rw [heq, ht]; exact hv))) ht heq
  out_exists l hl ht hlin := by
    obtain ⟨b, hb, hbs, hblin⟩ := hoff.out_exists l (h.off_link hl (.inr (ht ▸ hv))) ht hlin
    exact ⟨b, hb.1, hbs, hblin⟩
  out_unique b m hb hm hs heq := hoff.out_unique b m (h.off_link hb (.inl (hs ▸ hv)))
    (h.off_link hm (.inl (by rw [heq, hs]; exact hv))) hs heq
  beyond_unique b m hb hm hs heq := by
    have hbS : S b.source.vertex := hs ▸ hv
    -- a link of the part would lead to the same pin as `b`
    have hmD : ¬ m.Touches D := fun hD => h.beyond hm hD hb heq.symm hbS
    exact hoff.beyond_unique b m (h.off_link hb (.inl hbS)) ⟨hm, hmD⟩ hs heq

lemma Aside.bridge (hv : S v) (ha : N.link a) (hav : a.target.vertex = v) (hm : N.Bridges a m) :
    (N.off D).link a ∧ (N.off D).Bridges a m ∧ ¬ m.Touches D := by
  obtain ⟨hlin, b, hb, hba, hms, hmt, hk⟩ := hm
  have haoff := h.off_link ha (.inr (hav ▸ hv))
  have hboff := h.off_link hb (.inl (by rw [hba, hav]; exact hv))
  refine ⟨haoff, ⟨hlin, b, hboff, hba, hms, hmt, hk⟩, ?_⟩
  rintro (hD | hD)
  · exact haoff.2 (.inl (hms ▸ hD))
  · exact hboff.2 (.inr (hmt ▸ hD))

lemma Aside.isSplice (hv : S v) (hs : N.IsSplice v N') : (N.off D).IsSplice v (N'.off D) where
  signature w := by
    by_cases hD : D w
    · rw [signature_off_of_mem hD, signature_off_of_mem hD, ite_self]
    · rw [signature_off_of_not_mem hD, signature_off_of_not_mem hD, hs.signature]
  link m := by
    show N'.link m ∧ ¬ m.Touches D ↔ _
    rw [hs.link]
    constructor
    · rintro ⟨⟨hm, hav⟩ | ⟨a, ha, hav, hm⟩, hD⟩
      · exact .inl ⟨⟨hm, hD⟩, hav⟩
      · obtain ⟨ha', hm', _⟩ := h.bridge hv ha hav hm
        exact .inr ⟨a, ha', hav, hm'⟩
    · rintro (⟨⟨hm, hD⟩, hav⟩ | ⟨a, ⟨ha, _⟩, hav, hm⟩)
      · exact ⟨.inl ⟨hm, hav⟩, hD⟩
      · obtain ⟨hlin, b, ⟨hb, _⟩, hrest⟩ := hm
        have hm : N.Bridges a m := ⟨hlin, b, hb, hrest⟩
        exact ⟨.inr ⟨a, ha, hav, hm⟩, (h.bridge hv ha hav hm).2.2⟩

lemma Aside.link_of_splice (hv : S v) (hs : N.IsSplice v N') (hl : N'.link l) (hD : l.Touches D) : N.link l := by
  rcases (hs.link l).mp hl with ⟨hl, _⟩ | ⟨a, ha, hav, hm⟩
  · exact hl
  · exact absurd hD (h.bridge hv ha hav hm).2.2

lemma Aside.splice (hv : S v) (hs : N.IsSplice v N') : N'.Aside D S where
  ends hl hD := h.ends (h.link_of_splice hv hs hl hD) hD
  beyond {l b} hl hD hb heq hbS := by
    have hl' := h.link_of_splice hv hs hl hD
    rcases (hs.link b).mp hb with ⟨hb, _⟩ | ⟨a, _, hav, hm⟩
    · exact h.beyond hl' hD hb heq hbS
    · -- the link that the bridge ends like comes from the vertex itself
      obtain ⟨_, _, hb', hba, _, hmt, _⟩ := hm
      exact h.beyond hl' hD hb' (hmt.symm.trans heq) (by rw [hba, hav]; exact hv)
  no_loop hl hD := h.no_loop (h.link_of_splice hv hs hl hD) hD

end

end Net

namespace Graph

variable {g g' : Graph} {unit : Pin → UnitId} {first last D S : Vertex → Prop} {v : Vertex} {vs : List Vertex} {α : Type}

lemma spliceAll_run [Preorder α] {rank : Pin → α} (hg : g.Valid) (hs : g.Simple)
    (hrun : (g.net.off D).Strung unit first last rank) (haside : g.net.Aside D S) (hnodup : vs.Nodup)
    (hvs : ∀ v ∈ vs, S v ∧ (g.net.off D).Single v ∧ g.Live v ∧ ¬ first v ∧ ¬ last v) :
    ∃ g', vs.forM (fun v => removeVertex v .splice .delete) g = .ok ⟨⟩ g' ∧ g'.Valid ∧ g'.Simple ∧
      (g.net.off D).Splices vs (g'.net.off D) ∧ g'.net.Aside D S ∧
      ∀ w, g'.vertices.get? w = if w ∈ vs then none else g.vertices.get? w := by
  induction vs generalizing g with
  | nil => exact ⟨g, rfl, hg, hs, .nil, haside, fun w => by simp⟩
  | cons v rest ih =>
    obtain ⟨hnot, hnodup⟩ := nodup_cons.mp hnodup
    obtain ⟨hv, hsingle, hlive, hvf, hvl⟩ := hvs v mem_cons_self
    have hoff := hrun.fitted.spliceable hrun.complete hvl (hrun.no_return hsingle)
    obtain ⟨g1, h1, hvalid, hsimple, hvert, hsplice⟩ := removeVertex_splice_run hg hs hlive (haside.spliceable hv hoff)
    have hsplice' := haside.isSplice hv hsplice
    have hget : ∀ w, g1.vertices.get? w = if w = v then none else g.vertices.get? w := fun w => by rw [hvert, get?_release]
    obtain ⟨g', h', hvalid', hsimple', hsplices, haside', hget'⟩ :=
      ih hvalid hsimple (hrun.splice hsplice' hsingle hvf hvl) (haside.splice hv hsplice) hnodup fun w hw => by
        obtain ⟨hS, hwsingle, hwlive, hw'⟩ := hvs w (mem_cons_of_mem _ hw)
        have hne : w ≠ v := fun heq => hnot (heq ▸ hw)
        exact ⟨hS, hwsingle.splice hsplice' hne, live_of_get?_eq (by rw [hget, if_neg hne]) hwlive, hw'⟩
    refine ⟨g', ?_, hvalid', hsimple', .cons hsplice' hsplices, haside', fun w => ?_⟩
    · show (removeVertex v .splice .delete >>= fun _ => rest.forM _) g = _
      rw [bind_ok h1]
      exact h'
    · rw [hget', hget]
      by_cases hw : w = v <;> simp [hw]

lemma cutAll_run (deletion : Deletion) (hg : g.Valid) (hnodup : vs.Nodup) (hlive : ∀ v ∈ vs, g.Live v)
    (hloop : ∀ l, g.HasLink l → l.source.vertex ∈ vs → l.source.vertex ≠ l.target.vertex) :
    ∃ g', vs.forM (fun v => removeVertex v .cut deletion) g = .ok ⟨⟩ g' ∧ g'.Valid ∧ (g.Simple → g'.Simple) ∧
      (∀ m, g'.HasLink m ↔ g.HasLink m ∧ ¬ Link.Touches m (· ∈ vs)) ∧
      ∀ w, g'.vertices.get? w = if deletion = .delete ∧ w ∈ vs then none else g.vertices.get? w := by
  induction vs generalizing g with
  | nil => exact ⟨g, rfl, hg, id, fun m => by simp [Link.Touches], fun w => by simp⟩
  | cons v rest ih =>
    obtain ⟨hnot, hnodup⟩ := nodup_cons.mp hnodup
    obtain ⟨g1, h1, hvalid, hsimple, hvert, hlinks⟩ := removeVertex_cut_run hg (hlive v mem_cons_self) deletion
      fun l hl hs ht => hloop l hl (hs ▸ mem_cons_self) (hs.trans ht.symm)
    have hget : ∀ w, g1.vertices.get? w = if deletion = .delete ∧ w = v then none else g.vertices.get? w := by
      intro w
      rw [hvert]
      unfold Deletion.left
      cases deletion with
      | keep => simp
      | delete => simp [get?_release]
    obtain ⟨g', h', hvalid', hsimple', hlinks', hget'⟩ := ih hvalid hnodup (fun w hw => by
        have hne : ¬ (deletion = .delete ∧ w = v) := fun heq => hnot (heq.2 ▸ hw)
        exact live_of_get?_eq (by rw [hget, if_neg hne]) (hlive w (mem_cons_of_mem _ hw)))
      (fun l hl hs => hloop l ((hlinks l).mp hl).1 (mem_cons_of_mem _ hs))
    refine ⟨g', ?_, hvalid', fun hs => hsimple' (hsimple hs), fun m => ?_, fun w => ?_⟩
    · show (removeVertex v .cut deletion >>= fun _ => rest.forM _) g = _
      rw [bind_ok h1]
      exact h'
    · rw [hlinks', hlinks]
      unfold Link.Touches Link.Avoids
      simp only [mem_cons]
      tauto
    · rw [hget', hget]
      by_cases hw : w = v <;> by_cases hd : deletion = .delete <;> simp [hw, hd]

/-- **Splices, then the cuts of a part in two goes.** If the second go deletes what it cuts, what is left is the net
    without the part, with the vertices spliced out. -/
theorem clear_run [Preorder α] {rank : Pin → α} (cut inner : List Vertex) (deletion : Deletion)
    (hg : g.Valid) (hs : g.Simple) (hrun : (g.net.off D).Strung unit first last rank) (haside : g.net.Aside D S)
    (hnodup : vs.Nodup ∧ cut.Nodup ∧ inner.Nodup)
    (hvs : ∀ v ∈ vs, S v ∧ (g.net.off D).Single v ∧ g.Live v ∧ ¬ first v ∧ ¬ last v)
    (hcut : ∀ v ∈ cut, g.Live v ∧ v ∉ vs) (hinner : ∀ v ∈ inner, g.Live v ∧ v ∉ vs ∧ v ∉ cut)
    (hD : ∀ v, D v ↔ v ∈ cut ∨ v ∈ inner) :
    ∃ g1 g2 g', vs.forM (fun v => removeVertex v .splice .delete) g = .ok ⟨⟩ g1 ∧
      cut.forM (fun v => removeVertex v .cut .delete) g1 = .ok ⟨⟩ g2 ∧
      inner.forM (fun v => removeVertex v .cut deletion) g2 = .ok ⟨⟩ g' ∧
      g'.Valid ∧ (∀ w, g'.vertices.get? w =
        if w ∈ vs ∨ w ∈ cut ∨ (deletion = .delete ∧ w ∈ inner) then none else g.vertices.get? w) ∧
      (deletion = .delete → g'.Simple ∧ (g.net.off D).Splices vs g'.net) := by
  obtain ⟨g1, h1, hvalid1, hsimple1, hsplices, haside1, hget1⟩ := spliceAll_run hg hs hrun haside hnodup.1 hvs
  obtain ⟨g2, h2, hvalid2, hsimple2, hlinks2, hget2⟩ := cutAll_run .delete hvalid1 hnodup.2.1
    (fun v hv => live_of_get?_eq (by rw [hget1, if_neg (hcut v hv).2]) (hcut v hv).1)
    (fun l hl hv => haside1.no_loop hl (.inl ((hD _).mpr (.inl hv))))
  obtain ⟨g', h', hvalid', hsimple', hlinks', hget'⟩ := cutAll_run deletion hvalid2 hnodup.2.2 (fun v hv => by
      obtain ⟨hv', hvs', hcut'⟩ := hinner v hv
      exact live_of_get?_eq (by rw [hget2, if_neg fun h => hcut' h.2, hget1, if_neg hvs']) hv')
    (fun l hl hv => haside1.no_loop ((hlinks2 l).mp hl).1 (.inl ((hD _).mpr (.inr hv))))
  have hget : ∀ w, g'.vertices.get? w = if w ∈ cut ∨ (deletion = .delete ∧ w ∈ inner) then none else g1.vertices.get? w := by
    intro w
    rw [hget', hget2]
    by_cases hw : deletion = .delete ∧ w ∈ inner <;> simp [hw]
  refine ⟨g1, g2, g', h1, h2, h', hvalid', fun w => ?_, fun hdelete => ⟨hsimple' (hsimple2 hsimple1), ?_⟩⟩
  · rw [hget, hget1]
    by_cases hw : w ∈ vs <;> simp [hw]
  · have hnet : g'.net = g1.net.off D := by
      refine Net.ext (fun w => ?_) fun m => ?_
      · show ((g'.vertices.get? w).map _).map _ = _
        rw [hget]
        by_cases hw : D w
        · rw [if_pos (((hD w).mp hw).imp_right (⟨hdelete, ·⟩)), Net.signature_off_of_mem hw]
          rfl
        · rw [if_neg fun h => hw ((hD w).mpr (h.imp_right And.right)), Net.signature_off_of_not_mem hw]
          rfl
      · show g'.HasLink m ↔ g1.HasLink m ∧ ¬ m.Touches D
        rw [hlinks', hlinks2]
        unfold Link.Touches
        rw [hD, hD]
        tauto
    rw [hnet]
    exact hsplices

end Graph

namespace Circuit

variable {c : Circuit} {α : Type}

lemma forM_onGraph_of_ok {f : α → Graph.Edit PUnit} {l : List α} {g : Graph}
    (h : l.forM f c.graph = .ok ⟨⟩ g) : l.forM (fun x => onGraph (f x)) c = .ok ⟨⟩ { c with graph := g } := by
  induction l generalizing c with
  | nil => cases h; rfl
  | cons x rest ih =>
    obtain ⟨_, g1, hx, hrest⟩ := bind_eq_ok.mp (show (f x >>= fun _ => rest.forM f) c.graph = _ from h)
    show (onGraph (f x) >>= fun _ => rest.forM fun x => onGraph (f x)) c = _
    rw [bind_ok (onGraph_of_ok hx)]
    exact ih hrest

lemma discard_onGraph {edit : Graph.Edit α} : (discard (onGraph edit) : Edit PUnit) c = onGraph (discard edit) c := by
  cases h : edit c.graph with
  | ok a g =>
    rw [discard_of_ok (onGraph_of_ok h), onGraph_of_ok (discard_of_ok h)]
  | error e g =>
    rw [discard_of_error (onGraph_of_error h), onGraph_of_error (discard_of_error h)]

lemma removeEdge_run (e : Edge) :
    (do if (← get).graph.edges.contains e then discard (onGraph (removeEdge e)) : Edit Unit) c = .ok ⟨⟩
      (if c.graph.edges.contains e then { c with graph := c.graph.withoutEdge e } else c) := by
  rw [bind_get]
  split
  · next h =>
    obtain ⟨l, he⟩ := Option.isSome_iff_exists.mp h
    exact discard_of_ok (onGraph_of_ok (removeEdge_of_get? he))
  · rfl

lemma removeEdges_run (es : List Edge) (hg : c.graph.Valid) (hs : c.graph.Simple) :
    ∃ g, (es.forM fun e => do if (← get).graph.edges.contains e then discard (onGraph (removeEdge e)) : Edit Unit) c
        = .ok ⟨⟩ { c with graph := g } ∧ g.Valid ∧ g.Simple ∧ g.vertices = c.graph.vertices ∧
      ∀ {e l}, g.edges.get? e = some l ↔ e ∉ es ∧ c.graph.edges.get? e = some l := by
  induction es generalizing c with
  | nil => exact ⟨c.graph, rfl, hg, hs, rfl, by simp⟩
  | cons e rest ih =>
    show ∃ g, ((do if (← get).graph.edges.contains e then discard (onGraph (removeEdge e)) : Edit Unit) >>=
      fun _ => rest.forM _) c = _ ∧ _
    rw [bind_ok (removeEdge_run e)]
    split
    · next h =>
      obtain ⟨_, he⟩ := Option.isSome_iff_exists.mp h
      obtain ⟨g, hrun, hvalid, hsimple, hvert, hget⟩ := ih (c := { c with graph := c.graph.withoutEdge e })
        (hg.withoutEdge he) hs.withoutEdge
      refine ⟨g, hrun, hvalid, hsimple, hvert, fun {e' l} => ?_⟩
      rw [hget, get?_withoutEdge, mem_cons, not_or]
      tauto
    · next h =>
      obtain ⟨g, hrun, hvalid, hsimple, hvert, hget⟩ := ih hg hs
      refine ⟨g, hrun, hvalid, hsimple, hvert, fun {e' l} => ?_⟩
      rw [hget, mem_cons, not_or]
      refine ⟨fun ⟨hnot, hl⟩ => ⟨⟨?_, hnot⟩, hl⟩, fun ⟨hnot, hl⟩ => ⟨hnot.2, hl⟩⟩
      rintro rfl
      exact h (by unfold SlotStore.contains; rw [hl]; rfl)

end Circuit

/-! # `Net.Runs` — wires as lists of pins -/

open Option Relation

namespace Net

variable {N N' : Net} {unit : Pin → UnitId} {first last : Vertex → Prop} {v : Vertex} {vs : List Vertex}
  {p q z : Pin} {ps qs : List Pin}

/-- **A stretch of wire**: it leads from `p` over the pins of the list, and `z` is the last of them. -/
inductive Runs (N : Net) (p : Pin) : List Pin → Pin → Prop
  | nil : Runs N p [] p
  | snoc {ps : List Pin} {q z : Pin} : Runs N p ps q → N.Joined q z → Runs N p (ps ++ [z]) z

lemma Runs.append (h : N.Runs p ps q) (h' : N.Runs q qs z) : N.Runs p (ps ++ qs) z := by
  induction h' with
  | nil => rwa [append_nil]
  | snoc _ hstep ih => rw [← append_assoc]; exact ih.snoc hstep

lemma Runs.single (h : N.Joined p q) : N.Runs p [q] q := Runs.nil.snoc h

lemma Runs.cons (h : N.Joined p q) (h' : N.Runs q qs z) : N.Runs p (q :: qs) z := (Runs.single h).append h'

lemma Runs.mono {M : Net} (h : N.Runs p ps z) (hstep : ∀ {x y}, x = p ∨ x ∈ ps → y ∈ ps → N.Joined x y → M.Joined x y) :
    M.Runs p ps z := by
  induction h with
  | nil => exact .nil
  | @snoc ps q z h hqz ih =>
    refine (ih fun hx hy => hstep (hx.imp_right (mem_append_left _)) (mem_append_left _ hy)).snoc ?_
    refine hstep ?_ (mem_append_right _ mem_cons_self) hqz
    cases h with
    | nil => exact .inl rfl
    | snoc _ _ => exact .inr (by simp)

lemma Runs.eq_getLastD (h : N.Runs p ps z) : z = ps.getLastD p := by
  cases h with
  | nil => rfl
  | snoc _ _ => rw [getLastD_concat]

lemma Runs.exists_concat (h : N.Runs p (q :: qs) z) : ∃ ps, q :: qs = ps ++ [z] := by
  generalize hl : q :: qs = l at h
  cases h with
  | nil => cases hl
  | @snoc ps _ _ _ _ => exact ⟨ps, rfl⟩

lemma Runs.concat_inv (h : N.Runs p (ps ++ [z]) z) : ∃ q, N.Runs p ps q ∧ N.Joined q z := by
  generalize hl : ps ++ [z] = l at h
  cases h with
  | nil => exact absurd hl (by simp)
  | snoc h hstep =>
    obtain ⟨rfl, _⟩ := append_inj' hl rfl
    exact ⟨_, h, hstep⟩

lemma Runs.fed (h : N.Runs p ps z) (hq : q ∈ ps) : ∃ x, N.Joined x q := by
  induction h with
  | nil => cases hq
  | @snoc ps x z _ hstep ih =>
    rcases mem_append.mp hq with hq | hq
    · exact ih hq
    · cases mem_singleton.mp hq
      exact ⟨x, hstep⟩

lemma Runs.leads (h : N.Runs p ps z) (hq : q = p ∨ q ∈ ps) : ReflTransGen N.Joined q z := by
  induction h with
  | nil => rcases hq with rfl | hq; exacts [.refl, (by cases hq)]
  | @snoc ps x z _ hstep ih =>
    rcases hq with rfl | hq
    · exact (ih (.inl rfl)).tail hstep
    · rcases mem_append.mp hq with hq | hq
      · exact (ih (.inr hq)).tail hstep
      · cases mem_singleton.mp hq
        exact .refl

lemma Runs.path (h : N.Runs p ps z) (hq : q ∈ ps) : ReflTransGen N.Joined p q := by
  induction h with
  | nil => cases hq
  | @snoc ps x z h hstep ih =>
    rcases mem_append.mp hq with hq | hq
    · exact ih hq
    · cases mem_singleton.mp hq
      exact (h.leads (.inl rfl)).tail hstep

lemma Runs.between (h : N.Runs p (ps ++ [z]) z) (hq : q ∈ ps) : (∃ x, N.Joined x q) ∧ ∃ y, N.Joined q y := by
  obtain ⟨_, hruns, hlast⟩ := h.concat_inv
  refine ⟨hruns.fed hq, ?_⟩
  rcases ReflTransGen.cases_head (hruns.leads (.inr hq)) with rfl | ⟨y, hy, _⟩
  · exact ⟨z, hlast⟩
  · exact ⟨y, hy⟩

lemma exists_runs {r : Pin → Pin → Prop} {Q : Pin → Prop} (hr : ∀ {x y}, r x y → N.Joined x y ∧ Q y)
    (h : ReflTransGen r p z) : ∃ ps, N.Runs p ps z ∧ ∀ q ∈ ps, Q q := by
  induction h with
  | refl => exact ⟨[], .nil, by simp⟩
  | @tail x z _ hstep ih =>
    obtain ⟨ps, hps, hQ⟩ := ih
    obtain ⟨hjoin, hz⟩ := hr hstep
    refine ⟨ps ++ [z], hps.snoc hjoin, fun q hq => ?_⟩
    rcases mem_append.mp hq with hq | hq
    · exact hQ q hq
    · cases mem_singleton.mp hq
      exact hz

/-! ## Splices -/

/-- **A splice drops the pins of the vertex.** What read the end of the stretch reads the last pin that is left. -/
theorem IsSplice.runs (hs : N.IsSplice v N') (hN : N.Fitted) (hloop : ∀ l, N.link l → l.source.vertex ≠ l.target.vertex)
    (h : N.Runs p ps z) (hp : p.vertex ≠ v) : ∃ z', N'.Runs p (ps.filter fun q => q.vertex ≠ v) z' ∧ (z.vertex ≠ v → z' = z) ∧
      ∀ {l}, N.link l → l.source = z → l.target.vertex ≠ v → N'.link ⟨z', l.target, l.kind⟩ := by
  have hkeep : ∀ {l : Link}, N.link l → l.source.vertex ≠ v → l.target.vertex ≠ v →
      N'.link ⟨l.source, l.target, l.kind⟩ := fun {l} hl hsource htarget => (hs.link l).mpr (.inl ⟨hl, hsource, htarget⟩)
  induction h with
  | nil =>
    refine ⟨p, .nil, fun _ => rfl, fun {l} hl hsource htarget => ?_⟩
    subst hsource
    exact hkeep hl hp htarget
  | @snoc ps q z _ hqz ih =>
    obtain ⟨z0, hruns, hsame, hlink⟩ := ih
    obtain ⟨k, hk, hqz⟩ := hqz
    rw [filter_append]
    by_cases hz : z.vertex = v
    · -- the pin drops out, and what comes after it is bridged
      have hfilter : [z].filter (fun q => q.vertex ≠ v) = [] := by simp [hz]
      rw [hfilter, append_nil]
      refine ⟨z0, hruns, fun hne => absurd hz hne, fun {l} hl hsource htarget => ?_⟩
      have hq : q.vertex ≠ v := fun hq => hloop _ hqz (hq.trans hz.symm)
      rw [hsame hq]
      have hwire : l.kind.carrier = k := by
        have hsource' := hN.source_wire hl
        rw [hsource, hN.target_wire hqz] at hsource'
        exact (some.inj hsource').symm
      refine (hs.link _).mpr (.inr ⟨_, hqz, hz, hk, l, hl, hsource, rfl, rfl, ?_⟩)
      by_cases hlin : l.kind.isLinear
      · exact .inl ⟨hlin, by rw [← hwire, WireKind.carrier_eq hlin]⟩
      · have hbool := WireKind.eq_boolean hlin
        exact .inr ⟨by rw [← hwire, hbool]; rfl, hbool, hbool⟩
    · have hfilter : [z].filter (fun q => q.vertex ≠ v) = [z] := by simp [hz]
      rw [hfilter]
      refine ⟨z, hruns.snoc ⟨k, hk, hlink hqz rfl hz⟩, fun _ => rfl, fun {l} hl hsource htarget => ?_⟩
      subst hsource
      exact hkeep hl hz htarget

lemma Splices.runs {α : Type} [Preorder α] {rank : Vertex → α} (hs : N.Splices vs N')
    (hrun : N.Running unit first last rank) (hvs : ∀ v ∈ vs, ¬ first v ∧ ¬ last v) (h : N.Runs p ps z)
    (hp : p.vertex ∉ vs) : ∃ z', N'.Runs p (ps.filter fun q => q.vertex ∉ vs) z' ∧
      ∀ {l}, N.link l → l.source = z → l.target.vertex ∉ vs → N'.link ⟨z', l.target, l.kind⟩ := by
  induction hs generalizing ps z with
  | nil =>
    refine ⟨z, by simpa using h, fun {l} hl hsource _ => ?_⟩
    rw [← hsource]
    exact hl
  | @cons N N1 N2 v vs hv _ ih =>
    obtain ⟨hvf, hvl⟩ := hvs v mem_cons_self
    rw [mem_cons, not_or] at hp
    obtain ⟨z1, hruns1, _, hlink1⟩ := hv.runs hrun.threaded.toFitted hrun.climbs.no_loop h hp.1
    obtain ⟨z2, hruns2, hlink2⟩ := ih (hrun.splice hv hvf hvl) (fun w hw => hvs w (mem_cons_of_mem _ hw)) hruns1 hp.2
    refine ⟨z2, ?_, fun {l} hl hsource htarget => ?_⟩
    · rw [List.filter_filter] at hruns2
      convert hruns2 using 3
      simp [Bool.and_comm]
    · rw [mem_cons, not_or] at htarget
      have hl1 := hlink1 hl hsource htarget.1
      exact hlink2 (l := ⟨z1, l.target, l.kind⟩) hl1 rfl htarget.2

end Net

namespace Circuit

variable {c c' : Circuit} {unit : Pin → UnitId} {u : UnitId} {ends : Ends} {p : Pin} {ps : List Pin}

/-- **The pins that the wire of a unit passes** between its input and its output. -/
def WirePins (c : Circuit) (u : UnitId) (ps : List Pin) : Prop :=
  ∃ ends, c.boundary.get? u = some ends ∧ c.graph.net.Runs ⟨ends.input, 0⟩ (ps ++ [⟨ends.output, 0⟩]) ⟨ends.output, 0⟩

/-- What stands at each pin of a stretch, and at which port it is passed. -/
def stepsAt (c : Circuit) (ps : List Pin) : List (Option NodeKind × Nat) :=
  ps.map fun p => (c.graph.kind? p.vertex, p.index)

lemma stepsAt_append (ps qs : List Pin) : c.stepsAt (ps ++ qs) = c.stepsAt ps ++ c.stepsAt qs := map_append

lemma stepsAt_congr (h : ∀ p ∈ ps, c'.graph.kind? p.vertex = c.graph.kind? p.vertex) :
    c'.stepsAt ps = c.stepsAt ps := map_congr_left fun p hp => by rw [h p hp]

lemma stepsAt_map {ι : Vertex → Vertex} (h : ∀ p ∈ ps, c'.graph.kind? (ι p.vertex) = c.graph.kind? p.vertex) :
    c'.stepsAt (ps.map (Pin.map ι)) = c.stepsAt ps := by
  unfold stepsAt
  rw [List.map_map]
  exact map_congr_left fun p hp => congrArg (·, p.index) (h p hp)

lemma Wired.leads_output (h : c.Wired unit) (hu : c.boundary.get? u = some ends) (hp : c.OnWire u p) :
    ReflTransGen c.graph.net.Joined p ⟨ends.output, 0⟩ := by
  obtain ⟨_, hu1, hpath⟩ := hp
  obtain ⟨_, hu2, hout⟩ := h.onWire_output hu
  cases mem_unique hu hu1
  cases mem_unique hu hu2
  rcases ReflTransGen.total_of_right_unique h.threaded.joined_right_unique hpath hout with hlead | hlead
  · exact hlead
  · rcases ReflTransGen.cases_head hlead with rfl | ⟨q, ⟨k, _, hl⟩, _⟩
    · exact .refl
    · exact absurd ⟨u, ends, hu, rfl⟩ (h.complete.source_open hl)

lemma Wired.exists_wirePins (h : c.Wired unit) (hu : c.boundary.get? u = some ends) : ∃ ps, c.WirePins u ps := by
  obtain ⟨ps, hruns, _⟩ := Net.exists_runs (fun hstep => ⟨hstep, trivial⟩) (h.leads_output hu ⟨ends, hu, .refl⟩)
  cases ps with
  | nil =>
    have hends := congrArg Pin.vertex hruns.eq_getLastD
    exact absurd ⟨u, ends, hu, hends⟩ (h.not_isOutput ⟨u, ends, hu, rfl⟩)
  | cons q qs =>
    obtain ⟨ps, hps⟩ := hruns.exists_concat
    exact ⟨ps, ends, hu, hps ▸ hruns⟩

lemma WirePins.op_of_mem (hps : c.WirePins u ps) (h : c.Wired unit) (hp : p ∈ ps) :
    ∃ o, c.graph.kind? p.vertex = some (.op o) := by
  obtain ⟨_, _, hruns⟩ := hps
  obtain ⟨⟨x, k, _, hx⟩, y, k', _, hy⟩ := hruns.between hp
  have hin := h.target_open hx
  have hout := h.complete.source_open hy
  obtain ⟨kind, hkind⟩ := Graph.kind?_of_signature (h.threaded.live_of_link hy).1
  cases hb : kind.isBoundary with
  | true => exact absurd (h.only_ops hkind hb) (not_or.mpr ⟨hin, hout⟩)
  | false =>
    obtain ⟨o, rfl⟩ := exists_op_of_not_isBoundary hb
    exact ⟨o, hkind⟩

end Circuit

/-! # `Circuit.rename` -/

/-! ## Renaming -/

namespace Renaming

open SortedMap List Option SlotStore

variable {ρ : Renaming} {u u' : UnitId} {α : Type} {l : List (UnitId × α)} {units : List UnitId}

lemma checkKinds_iff {a : Unit} : ρ.checkKinds = .ok a ↔ ∀ u, (ρ.apply u).kind = u.kind := by
  unfold checkKinds apply
  split
  · next old new hfind =>
    have hne : old.kind ≠ new.kind := by simpa using find?_some hfind
    refine iff_of_false (by rintro ⟨⟩) fun h => hne ?_
    rw [← h old, get?_iff_mem.mpr (mem_of_find?_eq_some hfind)]
    rfl
  · next hnone =>
    refine iff_of_true rfl fun u => ?_
    cases hu : ρ.get? u with
    | none => rfl
    | some u' =>
      have hsame := find?_eq_none.mp hnone _ (get?_iff_mem.mp hu)
      exact (not_not.mp (mt decide_eq_true hsame)).symm

/-- **What collecting gives**: the entries under their new names, which are all different. -/
theorem collect_eq_ok {done result : SortedMap UnitId α} (h : ρ.collect l done = .ok result) :
    (∀ u x, result.get? u = some x ↔ done.get? u = some x ∨ ∃ y ∈ l, ρ.apply y.1 = u ∧ y.2 = x) ∧
      (l.map fun y => ρ.apply y.1).Nodup ∧ ∀ y ∈ l, done.get? (ρ.apply y.1) = none := by
  induction l generalizing done with
  | nil => cases h; simp
  | cons y rest ih =>
    obtain ⟨u0, _⟩ := y
    rw [collect] at h
    split at h
    · cases h
    · next hnot =>
      obtain ⟨hget, hnodup, hfree⟩ := ih h
      have hnone : done.get? (ρ.apply u0) = none := by
        exact not_isSome_iff_eq_none.mp hnot
      have hne : ∀ y ∈ rest, ρ.apply y.1 ≠ ρ.apply u0 := by
        intro y hy heq
        have := hfree y hy
        rw [heq, SortedMap.get?_insert_same] at this
        cases this
      refine ⟨fun u x => ?_, nodup_cons.mpr ⟨fun hmem => ?_, hnodup⟩, ?_⟩
      · rw [hget, get?_insert]
        by_cases hu : u = ρ.apply u0
        · subst hu
          simp [hnone, eq_comm]
        · simp [hu, Ne.symm hu]
      · obtain ⟨y, hy, heq⟩ := mem_map.mp hmem
        exact hne y hy heq
      · intro y hy
        rcases mem_cons.mp hy with rfl | hy
        · exact hnone
        · have := hfree y hy
          rwa [get?_insert, if_neg (hne y hy)] at this

lemma exists_collect {done : SortedMap UnitId α} (hnodup : (l.map fun y => ρ.apply y.1).Nodup)
    (hfree : ∀ y ∈ l, done.get? (ρ.apply y.1) = none) : ∃ result, ρ.collect l done = .ok result := by
  induction l generalizing done with
  | nil => exact ⟨done, rfl⟩
  | cons y rest ih =>
    obtain ⟨u, x⟩ := y
    obtain ⟨hnot, hnodup⟩ := nodup_cons.mp hnodup
    obtain ⟨hu, hrest⟩ := forall_mem_cons.mp hfree
    have hnew : ¬ done.contains (ρ.apply u) := by
      rw [SortedMap.contains, hu]
      exact Bool.false_ne_true
    rw [collect, if_neg hnew]
    refine ih hnodup fun y hy => ?_
    have hne : ρ.apply y.1 ≠ ρ.apply u := fun heq => hnot (mem_map.mpr ⟨y, hy, heq⟩)
    exact (get?_insert ..).trans ((if_neg hne).trans (hrest y hy))

lemma entries_flattening (hordered : units.Pairwise fun u w => compare u w = .lt) :
    (flattening units).entries = units.zipIdx.map fun x =>
      (x.1, .ofIndex x.1.kind ((units.take x.2).countP fun v => v.kind = x.1.kind)) := by
  have hindexed : (units.zipIdx.map Prod.fst).Pairwise fun u w => compare u w = .lt := by rwa [zipIdx_map_fst]
  exact entries_foldl_insert (m := empty) (pairwise_map.mpr (pairwise_map.mp hindexed))

lemma apply_flattening (hordered : units.Pairwise fun u w => compare u w = .lt) {i : Nat}
    (hi : (u, i) ∈ units.zipIdx) :
    (flattening units).apply u = .ofIndex u.kind ((units.take i).countP fun v => v.kind = u.kind) := by
  have hmoved := get?_iff_mem.mpr (entries_flattening hordered ▸ mem_map_of_mem hi)
  unfold apply
  rw [hmoved]
  rfl

end Renaming

namespace Circuit

open Wireloom.Graph Net SortedMap

variable {c c' guest : Circuit} {unit : Pin → UnitId} {u : UnitId} {ends : Ends} {ρ : Renaming}
  {changed : Bool} {k : NodeKind} {u' : UnitId}

lemma startsUnit_of_kind (hkind : u'.kind = u.kind) : startsUnit u' k = startsUnit u k := by
  cases k <;> simp only [startsUnit, UnitId.isQubit, hkind]

lemma endsUnit_of_kind (hkind : u'.kind = u.kind) : endsUnit u' k = endsUnit u k := by
  cases k <;> simp only [endsUnit, UnitId.isQubit, hkind]

/-- **`c'` is `c` with its units renamed.** -/
structure IsRenamed (ρ : Renaming) (c c' : Circuit) : Prop where
  kind : ∀ u, (ρ.apply u).kind = u.kind
  ends : ∀ {u' ends}, c'.boundary.get? u' = some ends ↔ ∃ u, c.boundary.get? u = some ends ∧ ρ.apply u = u'
  injective : ∀ {u u' ends ends'}, c.boundary.get? u = some ends → c.boundary.get? u' = some ends' →
    ρ.apply u = ρ.apply u' → u = u'
  others : c' = { c with boundary := c'.boundary }

lemma rename_eq_ok (hrun : c.rename ρ = .ok (changed, c')) : IsRenamed ρ c c' := by
  obtain ⟨_, hkinds, hrest⟩ := bind_ok_iff.mp hrun
  obtain ⟨_, hcollect, hrest⟩ := bind_ok_iff.mp hrest
  cases hrest
  obtain ⟨hget, hnodup, _⟩ := Renaming.collect_eq_ok hcollect
  refine ⟨Renaming.checkKinds_iff.mp hkinds, fun {u' ends} => ?_, fun {u u' ends ends'} hu hu' heq => ?_, rfl⟩
  · rw [hget]
    constructor
    · rintro (hnone | ⟨⟨u, _⟩, hmem, hu, rfl⟩)
      · cases hnone
      · exact ⟨u, get?_iff_mem.mpr hmem, hu⟩
    · rintro ⟨u, hu, heq⟩
      exact .inr ⟨(u, ends), get?_iff_mem.mp hu, heq, rfl⟩
  · exact congrArg Prod.fst (List.inj_on_of_nodup_map hnodup (get?_iff_mem.mp hu) (get?_iff_mem.mp hu') heq)

namespace IsRenamed

variable (hren : IsRenamed ρ c c')
include hren

lemma graph_eq : c'.graph = c.graph := by rw [hren.others]

lemma mem_units : u' ∈ c'.units ↔ ∃ u ∈ c.units, ρ.apply u = u' := by
  show u' ∈ c'.boundary.entries.map Prod.fst ↔ ∃ u ∈ c.boundary.entries.map Prod.fst, _
  simp only [mem_keys_iff, hren.ends]
  constructor
  · rintro ⟨ends, u, hu, heq⟩
    exact ⟨u, ⟨ends, hu⟩, heq⟩
  · rintro ⟨u, ⟨ends, hu⟩, heq⟩
    exact ⟨ends, u, hu, heq⟩

lemma exists_end_iff (side : Ends → Vertex) (v : Vertex) : (∃ u ends, c'.boundary.get? u = some ends ∧ side ends = v) ↔
      ∃ u ends, c.boundary.get? u = some ends ∧ side ends = v := by
  constructor
  · rintro ⟨_, ends, hu', rfl⟩
    obtain ⟨u, hu, _⟩ := hren.ends.mp hu'
    exact ⟨u, ends, hu, rfl⟩
  · rintro ⟨u, ends, hu, rfl⟩
    exact ⟨ρ.apply u, ends, hren.ends.mpr ⟨u, hu, rfl⟩, rfl⟩

/-- **Each pin takes the new name of its unit.** Names stay apart, since linear pins bear names of units. -/
theorem wired (h : c.Wired unit) : c'.Wired fun p => ρ.apply (unit p) where
  starts hu' := by
    obtain ⟨u, hu, rfl⟩ := hren.ends.mp hu'
    simp only [startsUnit_of_kind (hren.kind u), hren.graph_eq]
    exact h.starts hu
  stops hu' := by
    obtain ⟨u, hu, rfl⟩ := hren.ends.mp hu'
    simp only [endsUnit_of_kind (hren.kind u), hren.graph_eq]
    exact h.stops hu
  only_ops {v _} hk hb :=
    (or_congr (hren.exists_end_iff Ends.input v) (hren.exists_end_iff Ends.output v)).mpr (h.only_ops (hren.graph_eq ▸ hk) hb)
  valid := hren.graph_eq ▸ h.valid
  simple := hren.graph_eq ▸ h.simple
  threaded := by
    rw [hren.graph_eq]
    exact
      { toFitted := h.threaded.toFitted
        same_unit := fun hl hlin => congrArg ρ.apply (h.threaded.same_unit hl hlin)
        apart := fun {a b} ha hb hak hbl heq hunit => by
          obtain ⟨_, hu, _⟩ := h.onWire_unit (h.threaded.source_wire ha) (WireKind.isLinear_carrier _)
          obtain ⟨_, hu', _⟩ := h.onWire_unit (h.threaded.target_wire hb) hbl
          exact h.threaded.apart ha hb hak hbl heq (hren.injective hu hu' hunit) }
  complete := hren.graph_eq ▸ h.complete.congr (hren.exists_end_iff _) (hren.exists_end_iff _)
  acyclic := hren.graph_eq ▸ h.acyclic
  unit_input hu' := by
    obtain ⟨u, hu, rfl⟩ := hren.ends.mp hu'
    rw [h.unit_input hu]
  unit_output hu' := by
    obtain ⟨u, hu, rfl⟩ := hren.ends.mp hu'
    rw [h.unit_output hu]

end IsRenamed

lemma rename_wellFormed (h : c.WellFormed) (hrun : c.rename ρ = .ok (changed, c')) :
    c'.WellFormed := ((rename_eq_ok hrun).wired h.wired).wellFormed

lemma renameUnits_keeps (ρ : Renaming) : Keeps WellFormed (renameUnits ρ) := by
  intro c a c' h hrun
  exact rename_wellFormed h (revise_eq_ok.mp hrun)

lemma flattenRegisters_keeps : Keeps WellFormed flattenRegisters :=
  Keeps.get.bind fun _ => (renameUnits_keeps _).bind fun _ => Keeps.pure _

lemma changed_of_rename (hrun : c.rename ρ = .ok (changed, c')) : changed = c.units.any fun u => ρ.apply u ≠ u := by
  obtain ⟨_, _, hrest⟩ := bind_ok_iff.mp hrun
  obtain ⟨_, _, hrest⟩ := bind_ok_iff.mp hrest
  cases hrest
  rfl

lemma exists_rename_iff : (∃ r, c.rename ρ = .ok r) ↔ (∀ u, (ρ.apply u).kind = u.kind) ∧
    ∀ u ∈ c.units, ∀ w ∈ c.units, ρ.apply u = ρ.apply w → u = w := by
  constructor
  · rintro ⟨⟨_, _⟩, hrun⟩
    have hren := rename_eq_ok hrun
    refine ⟨hren.kind, fun u hu w hw => ?_⟩
    obtain ⟨_, hu⟩ := mem_keys_iff.mp hu
    obtain ⟨_, hw⟩ := mem_keys_iff.mp hw
    exact hren.injective hu hw
  · rintro ⟨hkind, hinj⟩
    have hnodup : (c.boundary.entries.map fun y => ρ.apply y.1).Nodup := by
      have hunits : (c.units.map ρ.apply).Nodup := (nodup_keys c.boundary).map_on hinj
      rwa [units, SortedMap.keys, List.map_map] at hunits
    have hfree : ∀ y ∈ c.boundary.entries, (empty : SortedMap UnitId Ends).get? (ρ.apply y.1) = none := fun _ _ => rfl
    obtain ⟨boundary, hcollect⟩ := Renaming.exists_collect hnodup hfree
    exact ⟨_, except_bind_ok (Renaming.checkKinds_iff (a := ()).mpr hkind) (except_bind_ok hcollect rfl)⟩

lemma IsRenamed.eq_of_fixed (hren : IsRenamed ρ c c') (hfixed : ∀ u ∈ c.units, ρ.apply u = u) : c' = c := by
  have hboundary : c'.boundary = c.boundary := by
    refine ext_get? fun u' => Option.ext fun ends => hren.ends.trans ⟨?_, fun hu' => ?_⟩
    · rintro ⟨u, hu, rfl⟩
      rwa [hfixed u (mem_keys_iff.mpr ⟨ends, hu⟩)]
    · exact ⟨u', hu', hfixed u' (mem_keys_iff.mpr ⟨ends, hu'⟩)⟩
  rw [hren.others, hboundary]

lemma rename_empty (c : Circuit) : c.rename .empty = .ok (c.units.any fun u => Renaming.apply empty u ≠ u, c) := by
  obtain ⟨⟨_, _⟩, hrun⟩ : ∃ r, c.rename .empty = .ok r := exists_rename_iff.mpr ⟨fun _ => rfl, fun _ _ _ _ heq => heq⟩
  rw [hrun, changed_of_rename hrun, (rename_eq_ok hrun).eq_of_fixed fun _ _ => rfl]

lemma renameUnits_cases (ρ : Renaming) (c : Circuit) :
    (∃ changed c', renameUnits ρ c = .ok changed c' ∧ IsRenamed ρ c c') ∨ ∃ e, renameUnits ρ c = .error e c := by
  unfold renameUnits revise
  cases hrun : rename ρ c with
  | ok r => exact .inl ⟨r.1, r.2, rfl, rename_eq_ok hrun⟩
  | error e => exact .inr ⟨e, rfl⟩

lemma isSimple_flattenRegisters {a : Renaming} (hrun : flattenRegisters c = .ok a c') : c'.isSimple := by
  obtain ⟨_, _, hget, hrest⟩ := bind_eq_ok.mp hrun
  cases hget
  obtain ⟨_, _, hrename, hrest⟩ := bind_eq_ok.mp hrest
  cases hrest
  refine List.all_eq_true.mpr fun u' hu' => ?_
  obtain ⟨ends, hends⟩ := mem_keys_iff.mp hu'
  obtain ⟨u, hu, rfl⟩ := (rename_eq_ok (revise_eq_ok.mp hrename)).ends.mp hends
  obtain ⟨i, hi⟩ := List.getElem?_of_mem (show u ∈ c.units from mem_keys_iff.mpr ⟨ends, hu⟩)
  rw [Renaming.apply_flattening c.pairwise_units (List.mem_zipIdx_iff_getElem?.mpr hi)]
  simp [UnitId.inDefaultRegister, UnitId.ofIndex]

/-! ## Blank wires -/

/-- What starts at the input of a blank wire ends at its output. -/
def IsBlank (c : Circuit) (ends : Ends) : Prop :=
  ∀ l, c.graph.HasLink l → l.source.vertex = ends.input → l.target.vertex = ends.output

variable (hblank : c.IsBlank ends) (h : c.Wired unit) (hu : c.boundary.get? u = some ends)

include hblank h hu in
lemma IsBlank.exists_link :
    ∃ e l, c.graph.edges.get? e = some l ∧ l.source.vertex = ends.input ∧ l.target.vertex = ends.output ∧
      ∀ m, c.graph.HasLink m → m.target.vertex = ends.output → m = l := by
  have hout := h.not_isOutput ⟨u, ends, hu, rfl⟩
  obtain ⟨l, ⟨e, he⟩, _, hs⟩ := (h.complete.drained_iff (wireAt_of_single (h.signature_input hu))
    (WireKind.isLinear_wire _)).mpr hout
  have hpin : ∀ {m}, c.graph.HasLink m → m.target.vertex = ends.output → m.target = ⟨ends.output, 0⟩ := fun hm hmt =>
    hmt ▸ (pin_of_single (by rw [hmt]; exact h.signature_output hu) (h.threaded.target_wire hm)).1
  have ht := hblank l ⟨e, he⟩ (by rw [hs])
  exact ⟨e, l, he, by rw [hs], ht, fun m hm hmt =>
    h.threaded.in_unique hm ⟨e, he⟩ ((hpin hm hmt).trans (hpin ⟨e, he⟩ ht).symm)⟩

include hblank h hu in
lemma IsBlank.outLinks : ∃ e l, c.graph.outLinks ends.input = [(e, l)] ∧ l.target.vertex = ends.output := by
  obtain ⟨e, l, he, hs, ht, honly⟩ := hblank.exists_link h hu
  have hall : ∀ p ∈ c.graph.outLinks ends.input, p = (e, l) := by
    rintro ⟨e', m⟩ hp
    obtain ⟨he', hms⟩ := (mem_outLinks h.valid).mp hp
    obtain rfl := honly m ⟨e', he'⟩ (hblank m ⟨e', he'⟩ hms)
    rw [h.simple he' he]
  have hmem := (mem_outLinks h.valid).mpr ⟨he, hs⟩
  refine ⟨e, l, ?_, ht⟩
  cases hlist : c.graph.outLinks ends.input with
  | nil => simp [hlist] at hmem
  | cons p rest =>
    rw [hlist] at hall
    have hnodup : (p :: rest).Nodup := hlist ▸ (nodup_outLinks h.valid ends.input).of_map
    obtain ⟨hp, hrest⟩ := List.forall_mem_cons.mp hall
    cases rest with
    | nil => rw [hp]
    | cons q _ =>
      exact absurd (by rw [hp, hrest q List.mem_cons_self]; exact List.mem_cons_self) (List.nodup_cons.mp hnodup).1

include h hu in
open Classical in
lemma isBlank_run : c.isBlank ends = .ok (decide (c.IsBlank ends)) := by
  obtain ⟨n, hn, _⟩ := node_of_live (h.live_input hu)
  have hlinks : c.graph.linksOutOf ends.input = .ok (c.graph.outLinks ends.input) := by
    rw [linksOutOf, hn]
    rfl
  refine except_bind_ok hlinks ?_
  by_cases hblank : c.IsBlank ends
  · obtain ⟨e, l, hlist, ht⟩ := hblank.outLinks h hu
    simp [hlist, ht, hblank]
  · split
    · next e l hlist =>
      have ht : l.target.vertex ≠ ends.output := by
        intro ht
        refine hblank fun m hm hs => ?_
        obtain ⟨_, he'⟩ := hm
        have hmem := (mem_outLinks h.valid).mpr ⟨he', hs⟩
        rw [hlist, List.mem_singleton] at hmem
        cases hmem
        exact ht
      simp [ht, hblank]
    · simp [hblank]

include hblank h hu in
lemma IsBlank.closed {l : Link} (hl : c.graph.HasLink l) : (l.source.vertex = ends.output ∨ l.source.vertex = ends.input ↔
      l.target.vertex = ends.output ∨ l.target.vertex = ends.input) ∧
    l.source.vertex ≠ ends.output ∧ l.target.vertex ≠ ends.input := by
  have htarget : l.target.vertex ≠ ends.input := fun heq =>
    h.target_open hl (heq ▸ ⟨u, ends, hu, rfl⟩)
  have hsource : l.source.vertex ≠ ends.output := fun heq => h.complete.source_open hl (heq ▸ ⟨u, ends, hu, rfl⟩)
  obtain ⟨_, m, _, hms, _, honly⟩ := hblank.exists_link h hu
  refine ⟨⟨fun hs => .inl (hblank l hl (hs.resolve_left hsource)), fun ht => .inr ?_⟩, hsource, htarget⟩
  rw [honly l hl (ht.resolve_right htarget), hms]

include h hu in
lemma Wired.ends_apart {u' : UnitId} {ends' : Ends} (hne : u' ≠ u) (hu' : c.boundary.get? u' = some ends') :
    ¬ (ends'.input = ends.output ∨ ends'.input = ends.input) ∧ ¬ (ends'.output = ends.output ∨ ends'.output = ends.input) := by
  constructor
  · rintro (heq | heq)
    · exact h.not_isOutput ⟨u', ends', hu', rfl⟩ (heq ▸ ⟨u, ends, hu, rfl⟩)
    · exact hne (by rw [← h.unit_input hu', heq, h.unit_input hu])
  · rintro (heq | heq)
    · exact hne (by rw [← h.unit_output hu', heq, h.unit_output hu])
    · exact h.not_isOutput ⟨u, ends, hu, rfl⟩ (heq ▸ ⟨u', ends', hu', rfl⟩)

lemma get?_erase_iff {u' : UnitId} {ends' : Ends} :
    (c.boundary.erase u).get? u' = some ends' ↔ u' ≠ u ∧ c.boundary.get? u' = some ends' := by
  rw [get?_erase]
  by_cases heq : u' = u <;> simp [heq]

include hu in
/-- Where units start, or end, without one of them: where they did, but for the ends of that one. -/
lemma exists_side_erase (side : Ends → Vertex) (hends : side ends = ends.output ∨ side ends = ends.input)
    (hothers : ∀ {u' ends'}, u' ≠ u → c.boundary.get? u' = some ends' →
      ¬ (side ends' = ends.output ∨ side ends' = ends.input)) (v : Vertex) :
    (∃ u' ends', (c.boundary.erase u).get? u' = some ends' ∧ side ends' = v) ↔
      (∃ u' ends', c.boundary.get? u' = some ends' ∧ side ends' = v) ∧ ¬ (v = ends.output ∨ v = ends.input) := by
  constructor
  · rintro ⟨u', ends', hu', rfl⟩
    obtain ⟨hne, hu'⟩ := get?_erase_iff.mp hu'
    exact ⟨⟨u', ends', hu', rfl⟩, hothers hne hu'⟩
  · rintro ⟨⟨u', ends', hu', rfl⟩, hv⟩
    refine ⟨u', ends', get?_erase_iff.mpr ⟨fun heq => hv ?_, hu'⟩, rfl⟩
    rw [heq, hu] at hu'
    rwa [← Option.some.inj hu']

include h hu in
lemma dropUnit_run (hblank : c.IsBlank ends) :
    ∃ g, dropUnit u ends c = .ok ⟨⟩ { c with graph := g, boundary := c.boundary.erase u } ∧
      ({ c with graph := g, boundary := c.boundary.erase u } : Circuit).Wired unit ∧
      g.vertices = (c.graph.vertices.release ends.input).release ends.output ∧
      ∀ l, g.HasLink l ↔ c.graph.HasLink l ∧ l.source.vertex ≠ ends.input ∧ l.target.vertex ≠ ends.output := by
  obtain ⟨k, hk, hstart⟩ := h.starts hu
  obtain ⟨_, hk', hend⟩ := h.stops hu
  have hin : c.IsInput ends.input := ⟨u, ends, hu, rfl⟩
  have hout : c.IsOutput ends.output := ⟨u, ends, hu, rfl⟩
  have hne : ends.output ≠ ends.input := fun heq => h.not_isOutput hin (heq ▸ hout)
  obtain ⟨g1, hrun1, hvalid1, hsimple1, hvert1, hlinks1⟩ := removeVertex_cut_run h.valid
    (live_of_kind? hk) .delete fun l hl _ => (hblank.closed h hu hl).2.2
  have hkind1 : ∀ w, g1.kind? w = if w = ends.input then none else c.graph.kind? w := fun w =>
    kind?_of_release hvert1
  obtain ⟨g2, hrun2, hvalid2, hsimple2, hvert2, hlinks2⟩ := removeVertex_cut_run hvalid1
    (live_of_kind? (by rw [hkind1, if_neg hne, hk'])) .delete
    fun l hl hs => absurd hs (hblank.closed h hu ((hlinks1 l).mp hl).1).2.1
  have hkind2 : ∀ w, g2.kind? w = if w = ends.output ∨ w = ends.input then none else c.graph.kind? w := by
    intro w
    rw [kind?_of_release hvert2, hkind1, ite_or]
  have hlinks : ∀ l, g2.HasLink l ↔ c.graph.HasLink l ∧ l.source.vertex ≠ ends.input ∧ l.target.vertex ≠ ends.output := by
    intro l
    rw [hlinks2, hlinks1]
    constructor
    · rintro ⟨⟨hl, hi⟩, ho⟩
      exact ⟨hl, hi.1, ho.2⟩
    · rintro ⟨hl, hs, ht⟩
      obtain ⟨_, hsource, htarget⟩ := hblank.closed h hu hl
      exact ⟨⟨hl, hs, htarget⟩, hsource, ht⟩
  -- what is left is the net without the two ends
  have hnet : g2.net = c.graph.net.off fun w => w = ends.output ∨ w = ends.input := by
    refine Net.ext (fun w => ?_) fun l => (hlinks l).trans ?_
    · show (g2.kind? w).map _ = _
      rw [hkind2]
      split
      · next hw => exact (signature_off_of_mem hw).symm
      · next hw => exact (signature_off_of_not_mem (N := c.graph.net) hw).symm
    · refine and_congr_right fun hl => ?_
      obtain ⟨_, hsource, htarget⟩ := hblank.closed h hu hl
      simp [Link.Touches, hsource, htarget]
  have hinput := exists_side_erase hu Ends.input (.inr rfl) fun hne' hu' => (h.ends_apart hu hne' hu').1
  have houtput := exists_side_erase hu Ends.output (.inl rfl) fun hne' hu' => (h.ends_apart hu hne' hu').2
  refine ⟨g2, ?_, ?_, by rw [hvert2, hvert1]; rfl, hlinks⟩
  · unfold dropUnit
    rw [bind_ok (show (modify _ : Edit PUnit) c = .ok ⟨⟩ { c with boundary := c.boundary.erase u } from rfl),
      bind_ok (onGraph_of_ok (c := { c with boundary := c.boundary.erase u }) hrun1)]
    exact onGraph_of_ok hrun2
  obtain ⟨_, _, _, hrank⟩ := h.exists_rank
  refine
    { starts := fun hu' => ?_, stops := fun hu' => ?_, only_ops := fun {v k} hv hb => ?_
      valid := hvalid2, simple := hsimple2 (hsimple1 h.simple)
      threaded := hnet ▸ h.threaded.off
      complete := hnet ▸ (h.complete.off fun hl => (hblank.closed h hu hl).1).congr hinput houtput
      acyclic := acyclic_of_ranked (hrank.mono fun l hl => ((hlinks l).mp hl).1)
      unit_input := fun hu' => h.unit_input (get?_erase_iff.mp hu').2
      unit_output := fun hu' => h.unit_output (get?_erase_iff.mp hu').2 }
  · obtain ⟨hne', hu'⟩ := get?_erase_iff.mp hu'
    obtain ⟨k, hk, hstart⟩ := h.starts hu'
    exact ⟨k, by rw [hkind2, if_neg (h.ends_apart hu hne' hu').1, hk], hstart⟩
  · obtain ⟨hne', hu'⟩ := get?_erase_iff.mp hu'
    obtain ⟨k, hk, hend⟩ := h.stops hu'
    exact ⟨k, by rw [hkind2, if_neg (h.ends_apart hu hne' hu').2, hk], hend⟩
  · replace hv : g2.kind? v = some k := hv
    rw [hkind2] at hv
    split at hv
    · cases hv
    · next hnot => exact (h.only_ops hv hb).imp (fun hi => (hinput v).mpr ⟨hi, hnot⟩) fun ho => (houtput v).mpr ⟨ho, hnot⟩

/-- The end of no wire in a list. -/
def OffWires (blank : List (UnitId × Ends)) (v : Vertex) : Prop := ∀ x ∈ blank, v ≠ x.2.input ∧ v ≠ x.2.output

instance (blank : List (UnitId × Ends)) (v : Vertex) : Decidable (OffWires blank v) :=
  inferInstanceAs (Decidable (∀ x ∈ blank, v ≠ x.2.input ∧ v ≠ x.2.output))

/-- **`c'` is `c` without some blank wires.** -/
structure IsTrimmed (blank : List (UnitId × Ends)) (c c' : Circuit) : Prop where
  ends : ∀ u, c'.boundary.get? u = if u ∈ blank.map Prod.fst then none else c.boundary.get? u
  node : ∀ {v n}, c'.graph.vertices.get? v = some n ↔ c.graph.vertices.get? v = some n ∧ OffWires blank v
  link : ∀ l, c'.graph.HasLink l ↔ c.graph.HasLink l ∧ ∀ x ∈ blank, l.source.vertex ≠ x.2.input ∧ l.target.vertex ≠ x.2.output
  made : c'.graph.bySequence.map Prod.fst = (c.graph.bySequence.map Prod.fst).filter fun v => OffWires blank v
  others : c' = { c with graph := c'.graph, boundary := c'.boundary }

lemma IsTrimmed.refl (c : Circuit) : IsTrimmed [] c c where
  ends _ := by simp
  node := by simp [OffWires]
  link _ := by simp
  made := by simp [OffWires]
  others := rfl

lemma IsTrimmed.cons {blank : List (UnitId × Ends)} {g : Graph}
    (htrim : IsTrimmed blank { c with graph := g, boundary := c.boundary.erase u } c')
    (hvert : g.vertices = (c.graph.vertices.release ends.input).release ends.output)
    (hlinks : ∀ l, g.HasLink l ↔ c.graph.HasLink l ∧ l.source.vertex ≠ ends.input ∧ l.target.vertex ≠ ends.output) :
    IsTrimmed ((u, ends) :: blank) c c' where
  ends u' := by
    rw [htrim.ends]
    rw [get?_erase]
    by_cases heq : u' = u
    · simp [heq]
    · simp only [List.map_cons, List.mem_cons, heq, false_or, if_false]
  node {v n} := by
    rw [htrim.node]
    rw [hvert, SlotStore.get?_release_eq_some_iff, SlotStore.get?_release_eq_some_iff]
    simp only [OffWires, List.forall_mem_cons]
    tauto
  link l := by
    rw [htrim.link]
    rw [hlinks, List.forall_mem_cons]
    tauto
  made := by
    have hfirst : g.bySequence.map Prod.fst =
        ((c.graph.bySequence.map Prod.fst).filter fun v => v ≠ ends.input).filter fun v => v ≠ ends.output := by
      rw [made_of_release (g := { c.graph with vertices := c.graph.vertices.release ends.input }) hvert, made_of_release rfl]
    rw [htrim.made]
    rw [hfirst, List.filter_filter, List.filter_filter]
    refine List.filter_congr fun v _ => ?_
    rw [Bool.eq_iff_iff, Bool.and_eq_true, Bool.and_eq_true, decide_eq_true_eq, decide_eq_true_eq, decide_eq_true_eq,
      decide_eq_true_eq]
    simp only [OffWires, List.forall_mem_cons]
    tauto
  others := by
    have hothers := htrim.others
    rw [hothers]

open Classical in
lemma blankUnits_run (h : c.Wired unit) : c.blankUnits = .ok (c.boundary.entries.filter fun x => c.IsBlank x.2) :=
  except_filterM_of_ok fun _ hx => isBlank_run h (get?_iff_mem.mpr hx)

open Classical in
lemma removeBlankWires_run (h : c.Wired unit) : ∃ c', removeBlankWires c =
        .ok ((c.boundary.entries.filter fun x => c.IsBlank x.2).map Prod.fst) c' ∧ c'.Wired unit ∧
      IsTrimmed (c.boundary.entries.filter fun x => c.IsBlank x.2) c c' := by
  have hnodup : ((c.boundary.entries.filter fun x => c.IsBlank x.2).map Prod.fst).Nodup :=
    (nodup_keys c.boundary).sublist (List.filter_sublist.map _)
  have hall : ∀ x ∈ c.boundary.entries.filter fun x => c.IsBlank x.2, c.boundary.get? x.1 = some x.2 ∧ c.IsBlank x.2 := by
    intro x hx
    obtain ⟨hx, hxblank⟩ := List.mem_filter.mp hx
    exact ⟨get?_iff_mem.mpr hx, of_decide_eq_true hxblank⟩
  unfold removeBlankWires
  rw [bind_ok (ask_of_ok (blankUnits_run h))]
  generalize c.boundary.entries.filter (fun x => c.IsBlank x.2) = blank at hnodup hall
  -- wires that are blank stay so while others are taken out
  have hloop : ∃ c', (blank.forM fun x : UnitId × Ends => dropUnit x.1 x.2) c = .ok ⟨⟩ c' ∧ c'.Wired unit ∧
      IsTrimmed blank c c' := by
    induction blank generalizing c with
    | nil => exact ⟨c, rfl, h, .refl c⟩
    | cons x rest ih =>
      obtain ⟨hnot, hnodup⟩ := List.nodup_cons.mp hnodup
      obtain ⟨⟨hx, hxblank⟩, hrest⟩ := List.forall_mem_cons.mp hall
      obtain ⟨g, hrun, hw, hvert, hlinks⟩ := dropUnit_run h hx hxblank
      obtain ⟨c', hloop, hw', htrim⟩ := ih hw hnodup fun y hy => by
        obtain ⟨hyget, hyblank⟩ := hrest y hy
        have hne : y.1 ≠ x.1 := fun heq => hnot (List.mem_map.mpr ⟨y, hy, heq⟩)
        exact ⟨by rw [get?_erase, if_neg hne, hyget], fun l hl => hyblank l ((hlinks l).mp hl).1⟩
      exact ⟨c', (bind_ok hrun).trans hloop, hw', htrim.cons hvert hlinks⟩
  obtain ⟨c', hloop, hw', htrim⟩ := hloop
  exact ⟨c', bind_ok hloop, hw', htrim⟩

lemma removeBlankWires_keeps : Keeps WellFormed removeBlankWires := by
  intro c a c' h hrun
  obtain ⟨_, hrun', hw, _⟩ := removeBlankWires_run h.wired
  obtain ⟨_, rfl⟩ := ok_unique hrun' hrun
  exact hw.wellFormed

end Circuit

end Wireloom
