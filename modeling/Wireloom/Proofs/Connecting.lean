import Wireloom.Circuit.Substitution
import Wireloom.Proofs.Composition
import Wireloom.Proofs.Hole

/-!
# `Circuit.connectSlot` — connecting a copied circuit to a hole

While the slots of a hole are connected, links are only put in and some vertices get another content (`Graph.Alters`).
-/

namespace Wireloom

/-- Whether a wire ends here that is not discarded. -/
def NodeKind.isOutput : NodeKind → Bool
  | output _ => true
  | _ => false

namespace Net

/-! ## What a slot adds -/

/-- **The links that connect a slot.** The wire goes through the two ends; or the readers of the first one also read
    what the slot reads. -/
inductive SlotLink (G : Net) (s : Slot) : Link → Prop
  | entry {x : Link} : s.exit = some x → SlotLink G s ⟨s.entry.source, ⟨s.input, 0⟩, s.entry.kind⟩
  | exit {x : Link} : s.exit = some x → SlotLink G s ⟨⟨s.output, 0⟩, x.target, s.entry.kind⟩
  | read {l : Link} : s.exit = none → G.link l → l.source = ⟨s.input, 0⟩ → l.kind = .boolean →
      SlotLink G s ⟨s.entry.source, l.target, .boolean⟩

namespace Slotted

variable {H G : Net} {first last : Vertex → Prop} {slots : List Slot} {s t : Slot} {m x : Link}
  (h : Slotted H G first last slots)
include h

lemma slotLink_ends (hs : s ∈ slots) (hm : SlotLink G s m) :
    ((H.signature? m.source.vertex).isSome ∧ (G.signature? m.target.vertex).isSome) ∨
      ((G.signature? m.source.vertex).isSome ∧ (H.signature? m.target.vertex).isSome) := by
  cases hm with
  | entry hx => exact .inl ⟨h.host_source hs, h.live_input hs⟩
  | @exit x hx => exact .inr ⟨h.live_output hs, h.host_exit (x := x) hs hx⟩
  | @read l hx hl hsource hk => exact .inl ⟨h.host_source hs, (h.guest_live hl).2⟩

lemma slotLink_new (hs : s ∈ slots) (hm : SlotLink G s m) : ¬ H.link m ∧ ¬ G.link m := by
  rcases h.slotLink_ends hs hm with ⟨hsource, htarget⟩ | ⟨hsource, htarget⟩
  · exact ⟨fun hl => h.not_both (h.host_live hl).2 htarget, fun hl => h.not_both hsource (h.guest_live hl).1⟩
  · exact ⟨fun hl => h.not_both (h.host_live hl).1 hsource, fun hl => h.not_both htarget (h.guest_live hl).2⟩

lemma slotLink_unique {m' : Link} (hs : s ∈ slots) (ht : t ∈ slots) (hm : SlotLink G s m) (hm' : SlotLink G t m')
    (heq : m = m') : s = t := by
  cases hm with
  | entry hx =>
    cases hm' with
    | entry hy => exact h.input_injective hs ht (congrArg Pin.vertex (Link.mk.inj heq).2.1)
    | @exit y hy =>
      exact absurd (congrArg Pin.vertex (Link.mk.inj heq).2.1).symm (h.sides_ne (h.host_exit ht hy) (h.live_input hs))
    | @read l' _ hl' _ _ =>
      exact absurd (congrArg Pin.vertex (Link.mk.inj heq).2.1).symm (h.target_ne_input hs hl')
  | @exit x hx =>
    cases hm' with
    | entry hy =>
      exact absurd (congrArg Pin.vertex (Link.mk.inj heq).1).symm (h.sides_ne (h.host_source ht) (h.live_output hs))
    | exit hy => exact h.output_injective hs ht (congrArg Pin.vertex (Link.mk.inj heq).1)
    | read hy hl' _ _ =>
      exact absurd (congrArg Pin.vertex (Link.mk.inj heq).1).symm (h.sides_ne (h.host_source ht) (h.live_output hs))
  | @read l hx hl hsource hk =>
    cases hm' with
    | entry hy => exact absurd (congrArg Pin.vertex (Link.mk.inj heq).2.1) (h.target_ne_input ht hl)
    | @exit y hy =>
      exact absurd (congrArg Pin.vertex (Link.mk.inj heq).2.1).symm (h.sides_ne (h.host_exit ht hy) (h.guest_live hl).2)
    | @read l' hy hl' hsource' _ =>
      have hll := h.guest_fitted.in_unique hl hl' (Link.mk.inj heq).2.1
      rw [hll, hsource'] at hsource
      exact (h.input_injective ht hs (congrArg Pin.vertex hsource)).symm

lemma slotLink_source (hs : s ∈ slots) (ht : t ∈ slots) (hm : SlotLink G t m) : m.source ≠ ⟨s.input, 0⟩ := by
  intro heq
  cases hm with
  | entry hx => exact h.sides_ne (h.host_source ht) (h.live_input hs) (congrArg Pin.vertex heq)
  | exit hx => exact h.input_ne_output hs ht (congrArg Pin.vertex heq).symm
  | read hx hl hsource hk => exact h.sides_ne (h.host_source ht) (h.live_input hs) (congrArg Pin.vertex heq)

end Slotted

end Net

namespace Graph

variable {g g' g'' : Graph} {v : Vertex} {l : Link} {P : Link → Prop} {t : Vertex → NodeKind → NodeKind}
  {Q : Link → Prop} {t' : Vertex → NodeKind → NodeKind}

/-! ## Edits that put links in and change contents -/

/-- **`g'` is `g` with new links, and with other contents at some vertices.** -/
structure Alters (g g' : Graph) (new : Link → Prop) (touch : Vertex → NodeKind → NodeKind) : Prop where
  valid : g'.Valid
  simple : g'.Simple
  nodes : ∀ v, g'.vertices.get? v = (g.vertices.get? v).map fun n => { n with kind := touch v n.kind }
  links : ∀ m, g'.HasLink m ↔ g.HasLink m ∨ new m
  kept : ∀ {e m}, g.edges.get? e = some m → g'.edges.get? e = some m

lemma Grows.alters (h : Grows g g' P) : Alters g g' P fun _ k => k where
  valid := h.valid
  simple := h.simple
  nodes v := by rw [h.vertices, show (fun n : Node => { n with kind := n.kind }) = id from rfl, Option.map_id]; rfl
  links := h.links
  kept := h.kept

lemma Alters.trans (h : Alters g g' P t)
    (h' : Alters g' g'' Q t') : Alters g g'' (fun m => P m ∨ Q m) fun v k => t' v (t v k) where
  valid := h'.valid
  simple := h'.simple
  nodes v := by rw [h'.nodes, h.nodes, Option.map_map]; rfl
  links m := by rw [h'.links, h.links, or_assoc]
  kept he := h'.kept (h.kept he)

lemma Alters.congr (h : Alters g g' P t) (hPQ : ∀ m, P m ↔ Q m)
    (ht : ∀ v k, g.kind? v = some k → t v k = t' v k) : Alters g g' Q t' :=
  { h with
    links := fun m => by rw [h.links, hPQ]
    nodes := fun v => by
      rw [h.nodes]
      cases hn : g.vertices.get? v with
      | none => rfl
      | some n => rw [Option.map_some, Option.map_some, ht v n.kind (by unfold kind?; rw [hn]; rfl)] }

lemma Alters.kind? (h : Alters g g' P t) (v : Vertex) : g'.kind? v = (g.kind? v).map (t v) := by
  unfold Graph.kind?
  rw [h.nodes, Option.map_map, Option.map_map]
  rfl

lemma Alters.live (h : Alters g g' P t) : g'.Live v ↔ g.Live v := by
  rw [live_iff_kind?, live_iff_kind?, h.kind?]
  cases g.kind? v <;> simp

lemma setKind_alters {k : NodeKind} (hg : g.Valid) (hs : g.Simple) (hv : g.Live v) :
    ∃ g', setKind v k g = .ok ⟨⟩ g' ∧ Alters g g' (fun _ => False) fun w k' => if w = v then k else k' := by
  refine ⟨g.withKind v k, setKind_of_live hv, hg.withKind v k, hs.withKind, fun w => ?_, fun m => by simp, id⟩
  unfold withKind
  rw [SlotStore.get?_update]
  by_cases hw : w = v
  · simp only [if_pos hw]
  · simp only [if_neg hw]
    cases g.vertices.get? w <;> rfl

end Graph

namespace Circuit

open Wireloom.Graph List Net Option SortedSet

variable {c c' : Circuit} {entry exit : Edge} {ends : Ends} {rest : Leftovers} {before after : Link} {copies : Copies}
  {g : Graph} {ka : NodeKind} {k : NodeKind} {s : Slot} {slots : List Slot} {v : Vertex} {x : Link}

/-! ## One slot -/

/-- **A slot that only reads**: the readers of the copied input also read what the slot reads. -/
theorem connectReads_run (ends : Ends) (rest : Leftovers) (hg : c.graph.Valid) (hs : c.graph.Simple)
    (he : c.graph.edges.get? entry = some before)
    (hnew : ∀ l, c.graph.HasLink l → l.source = ⟨ends.input, 0⟩ → l.kind = .boolean →
      ¬ c.graph.HasLink ⟨before.source, l.target, .boolean⟩) :
    ∃ g, connectReads entry ends rest c
        = .ok { rest with dropped := rest.dropped ++ [ends.input, ends.output] } { c with graph := g } ∧
      Grows c.graph g fun m => ∃ l, c.graph.HasLink l ∧ l.source = ⟨ends.input, 0⟩ ∧ l.kind = .boolean ∧
        m = ⟨before.source, l.target, .boolean⟩ := by
  obtain ⟨g, hrun, hgrow⟩ := addReads_grows hg hs (q := before.source) (hg.source_live ⟨_, he⟩) hnew
  refine ⟨g, ?_, hgrow⟩
  unfold connectReads
  rw [bind_ok (ask_of_ok (link_eq_ok.mpr he)), bind_get]
  have hloop : (c.graph.reads ⟨ends.input, 0⟩).forM
      (fun p => discard (onGraph (addLink ⟨before.source, p.2.target, .boolean⟩)) : _ → Edit PUnit) c
      = .ok ⟨⟩ { c with graph := g } :=
    (forM_congr fun _ _ _ => discard_onGraph).trans (forM_onGraph_of_ok hrun)
  rw [bind_ok hloop]
  rfl

lemma setKind_when_run {b : Bool} (hg : c.graph.Valid) (hs : c.graph.Simple) (hv : c.graph.Live v) :
    ∃ g, (if b then onGraph (setKind v k) else pure ⟨⟩ : Edit PUnit) c = .ok ⟨⟩ { c with graph := g } ∧
      Alters c.graph g (fun _ => False) fun w k' => if b ∧ w = v then k else k' := by
  cases b with
  | true =>
    obtain ⟨g, hrun, halters⟩ := setKind_alters hg hs hv
    exact ⟨g, onGraph_of_ok hrun, halters.congr (fun _ => Iff.rfl) fun w k' _ => by simp⟩
  | false =>
    exact ⟨c.graph, rfl, (Grows.refl hg hs).alters.congr (fun _ => Iff.rfl) fun w k' _ => by simp⟩

lemma bind_discard_of_ok {d : Bool} {w : Vertex} {α : Type} {f : PUnit → Edit α} (hka : c.graph.kind? w = some ka)
    (hrun : (if (d && ka.isOutput) then onGraph (setKind w .discard) else pure ⟨⟩ : Edit PUnit) c = .ok ⟨⟩ c') :
    (if d then (ask fun c => c.graph.kind w) >>= fun k => match k with
      | .output _ => onGraph (setKind w .discard) >>= f
      | _ => f ⟨⟩
      else f ⟨⟩) c = f ⟨⟩ c' := by
  cases d with
  | false => cases hrun; rfl
  | true =>
    show ((ask fun c => c.graph.kind w) >>= fun k => _) c = _
    rw [bind_ok (ask_of_ok (kind_eq_ok.mpr hka))]
    cases ka with
    | output kind => exact bind_ok hrun
    | input kind => cases hrun; rfl
    | create => cases hrun; rfl
    | discard => cases hrun; rfl
    | op o => cases hrun; rfl

/-- **A slot with a wire**: the wire goes through the copied ends, of which the first may become a reset, and the end
    of the host's wire may become a discarded one. -/
theorem connectWire_run (ends : Ends) (rest : Leftovers) (hg : c.graph.Valid) (hs : c.graph.Simple)
    (he : c.graph.edges.get? entry = some before) (hx : c.graph.edges.get? exit = some after) {ki ko kb : NodeKind}
    (hki : c.graph.kind? ends.input = some ki) (hko : c.graph.kind? ends.output = some ko)
    (hkb : c.graph.kind? before.source.vertex = some kb) (hka : c.graph.kind? after.target.vertex = some ka)
    (hio : ends.output ≠ ends.input) (hai : after.target.vertex ≠ ends.input)
    (hnew : ¬ c.graph.HasLink ⟨before.source, ⟨ends.input, 0⟩, before.kind⟩)
    (hnew' : ¬ c.graph.HasLink ⟨⟨ends.output, 0⟩, after.target, before.kind⟩) :
    ∃ g, connectWire entry exit ends rest c = .ok ({ rest with
            crossed := (rest.crossed.add entry).add exit
            spliced := rest.spliced ++ if (ki.isCreate && !kb.isCreate) then [ends.output] else [ends.input, ends.output]
          }.setWriter exit ends.output) { c with graph := g } ∧
      Alters c.graph g
        (fun m => m = ⟨before.source, ⟨ends.input, 0⟩, before.kind⟩ ∨ m = ⟨⟨ends.output, 0⟩, after.target, before.kind⟩)
        (fun v k => if (ko.isDiscard && ka.isOutput) ∧ v = after.target.vertex then .discard
          else if (ki.isCreate && !kb.isCreate) ∧ v = ends.input then .op .reset else k) := by
  have hbefore := hg.source_live ⟨_, he⟩
  have hafter := hg.target_live ⟨_, hx⟩
  -- two links come in; then the copied start may become a reset, and the end of the wire a discard
  obtain ⟨g₁, hadd1, hgrow1⟩ := addLink_grows hg hs hnew hbefore (live_of_kind? hki)
  have hnew1 : ¬ g₁.HasLink ⟨⟨ends.output, 0⟩, after.target, before.kind⟩ := by
    rw [hgrow1.links]
    rintro (hm | hm)
    · exact hnew' hm
    · exact hai (congrArg Pin.vertex (Link.mk.inj hm).2.1)
  obtain ⟨g2, hadd2, hgrow2⟩ := addLink_grows hgrow1.valid hgrow1.simple hnew1
    (hgrow1.live.mpr (live_of_kind? hko)) (hgrow1.live.mpr hafter)
  have hgrow := hgrow1.trans hgrow2
  obtain ⟨g3, hset3, halters3⟩ := setKind_when_run
    (k := .op .reset) (c := { c with graph := g2 }) hgrow.valid hgrow.simple (hgrow.live.mpr (live_of_kind? hki))
  have halters := hgrow.alters.trans halters3
  have hkeep : ∀ {v k}, v ≠ ends.input → c.graph.kind? v = some k → g3.kind? v = some k := by
    intro v k hv hk
    rw [halters.kind?, hk, map_some, if_neg fun h => hv h.2]
  obtain ⟨g4, hset4, halters4⟩ := setKind_when_run (c := { c with graph := g3 }) halters.valid halters.simple
    (live_of_kind? (hkeep hai hka))
  refine ⟨g4, ?_, (halters.trans halters4).congr (fun m => by simp) fun v k _ => rfl⟩
  unfold connectWire
  rw [bind_ok (ask_of_ok (link_eq_ok.mpr he)), bind_ok (ask_of_ok (link_eq_ok.mpr hx)),
    bind_ok (onGraph_of_ok hadd1), bind_ok (onGraph_of_ok hadd2)]
  dsimp only
  rw [bind_ok (ask_of_ok (kind_eq_ok.mpr ((hgrow.kind? _).trans hki))),
    bind_ok (ask_of_ok (kind_eq_ok.mpr ((hgrow.kind? _).trans hkb)))]
  refine (bind_when_of_ok hset3).trans ?_
  rw [bind_ok (ask_of_ok (kind_eq_ok.mpr (hkeep hio hko)))]
  exact (bind_discard_of_ok (hkeep hai hka) hset4).trans rfl

/-! ## What the slots change -/

/-- The input of the slot becomes a reset: a qubit is created there, and the host does not create it. -/
def resets (g : Graph) (s : Slot) : Bool :=
  s.exit.isSome && ((g.kind? s.input).any NodeKind.isCreate && !(g.kind? s.entry.source.vertex).any NodeKind.isCreate)

/-- The end of the host's wire becomes a discarded one. -/
def discards (g : Graph) (s : Slot) (v : Vertex) : Bool :=
  (g.kind? s.output).any NodeKind.isDiscard && s.exit.any fun x => x.target.vertex = v && (g.kind? v).any NodeKind.isOutput

/-- What stands at a vertex once slots are connected. -/
def touched (g : Graph) (slots : List Slot) (v : Vertex) (k : NodeKind) : NodeKind :=
  if slots.any (fun s => resets g s && s.input = v) then .op .reset
  else if slots.any (fun s => discards g s v) then .discard
  else k

/-- The ends that are to be spliced out. -/
def splicedBy (g : Graph) (s : Slot) : List Vertex :=
  if s.exit.isSome then if resets g s then [s.output] else [s.input, s.output] else []

/-- The ends that are to be cut out. -/
def droppedBy (s : Slot) : List Vertex := if s.exit.isSome then [] else [s.input, s.output]

lemma touched_append : touched g (slots ++ [s]) v k =
      if slots.any (fun s => resets g s && s.input = v) || (resets g s && s.input = v) then .op .reset
      else if slots.any (fun s => discards g s v) || discards g s v then .discard else k := by
  unfold touched
  simp only [any_append, any_cons, any_nil, Bool.or_false]

lemma resets_eq {ki kb : NodeKind} (hx : s.exit = some x) (hki : g.kind? s.input = some ki)
    (hkb : g.kind? s.entry.source.vertex = some kb) :
    resets g s = (ki.isCreate && !kb.isCreate) := by
  unfold resets
  rw [hx, hki, hkb]
  rfl

lemma resets_cases (h : resets g s) : (∃ x, s.exit = some x) ∧ g.kind? s.input = some .create := by
  unfold resets at h
  rw [Bool.and_eq_true, Bool.and_eq_true, isSome_iff_exists, Option.any_eq_true] at h
  obtain ⟨hx, ⟨k, hk, hcreate⟩, _⟩ := h
  exact ⟨hx, eq_create_of_isCreate hcreate ▸ hk⟩

lemma discards_eq {ko : NodeKind} (hx : s.exit = some x) (hko : g.kind? s.output = some ko)
    (hka : g.kind? x.target.vertex = some ka) (v : Vertex) :
    discards g s v = (ko.isDiscard && ka.isOutput && (x.target.vertex = v : Bool)) := by
  unfold discards
  rw [hx, hko]
  by_cases hv : x.target.vertex = v
  · simp [← hv, hka]
  · simp [hv]

lemma discards_cases (h : discards g s v) :
    (∃ k, g.kind? s.output = some k ∧ k.isDiscard) ∧ (∃ x, s.exit = some x ∧ x.target.vertex = v) ∧
      ∃ k, g.kind? v = some k ∧ k.isOutput := by
  unfold discards at h
  rw [Bool.and_eq_true, Option.any_eq_true, Option.any_eq_true] at h
  obtain ⟨⟨k, hk, hdis⟩, x, hx, hxv⟩ := h
  rw [Bool.and_eq_true, Option.any_eq_true, decide_eq_true_eq] at hxv
  exact ⟨⟨k, hk, hdis⟩, ⟨x, hx, hxv.1⟩, hxv.2⟩

lemma touched_of_none (hreset : ∀ s ∈ slots, resets g s → s.input ≠ v)
    (hdiscard : ∀ s ∈ slots, ¬ discards g s v) : touched g slots v k = k := by
  unfold touched
  rw [if_neg, if_neg]
  · rw [List.any_eq_true]
    rintro ⟨s, hs, hd⟩
    exact hdiscard s hs hd
  · rw [List.any_eq_true]
    rintro ⟨s, hs, hr⟩
    rw [Bool.and_eq_true, decide_eq_true_eq] at hr
    exact hreset s hs hr.1 hr.2

lemma touched_op {o : Op} (hk : g.kind? v = some (.op o)) : touched g slots v (.op o) = .op o := by
  refine touched_of_none (fun s _ hr heq => ?_) fun s _ hd => ?_
  · cases mem_unique hk (heq ▸ (resets_cases hr).2)
  · obtain ⟨_, _, k, hk', hout⟩ := discards_cases hd
    cases mem_unique hk hk'
    cases hout

/-- A unit of the replacement with the edges of the slot that it fills. -/
abbrev Filling := (UnitId × Ends) × Edge × Option Edge

lemma connectSlot_of_none {x : Filling} (h : copies.getEnds x.1.2 = .ok ends) (hx : x.2.2 = none) :
    connectSlot copies rest x c = connectReads x.2.1 ends rest c := by
  obtain ⟨⟨u, _⟩, _, _⟩ := x
  cases hx
  exact bind_ok (ask_of_ok h)

lemma connectSlot_of_some {x : Filling} (h : copies.getEnds x.1.2 = .ok ends) (hx : x.2.2 = some exit)
    : connectSlot copies rest x c = connectWire x.2.1 exit ends rest c := by
  obtain ⟨⟨u, _⟩, _, exit⟩ := x
  cases hx
  exact bind_ok (ask_of_ok h)

/-- The slot that a unit fills, as the net of the host and the copies see it. -/
def slotOf (g : Graph) (ι : Vertex → Vertex) (x : Filling) : Slot where
  input := ι x.1.2.input
  output := ι x.1.2.output
  entry := (g.edges.get? x.2.1).getD ⟨⟨ι x.1.2.input, 0⟩, ⟨ι x.1.2.output, 0⟩, .quantum⟩
  exit := x.2.2.bind g.edges.get?

/-- The slots that units fill. -/
abbrev slotsAt (c : Circuit) (ι : Vertex → Vertex) (xs : List Filling) : List Slot := xs.map (slotOf c.graph ι)

/-- **The replacement is copied in, and its wires go into the slots.** -/
structure Ready (c c₁ : Circuit) (G : Net) (ι : Vertex → Vertex) (xs : List Filling) : Prop where
  slotted : Slotted c.graph.net G c.IsInput c.IsOutput (xs.map (slotOf c.graph ι))
  framed : c.Framed
  union : c.graph.net.IsUnion G c₁.graph.net
  old : ∀ {v k}, c.graph.kind? v = some k → c₁.graph.kind? v = some k
  valid : c₁.graph.Valid
  simple : c₁.graph.Simple
  kept : ∀ {e m}, c.graph.edges.get? e = some m → c₁.graph.edges.get? e = some m
  entry : ∀ {x}, x ∈ xs → ∃ l, c.graph.edges.get? x.2.1 = some l
  exit : ∀ {x e}, x ∈ xs → x.2.2 = some e → ∃ l, c.graph.edges.get? e = some l
  nodup : (xs.map (slotOf c.graph ι)).Nodup

/-- **What is left to do after some slots.** -/
structure LeftBy (g g₁ : Graph) (ι : Vertex → Vertex) (done : List Filling) (rest : Leftovers) : Prop where
  spliced : rest.spliced = (done.map (slotOf g ι)).flatMap (splicedBy g₁)
  dropped : rest.dropped = (done.map (slotOf g ι)).flatMap droppedBy
  crossed : ∀ {e}, rest.crossed.contains e = true ↔ ∃ x ∈ done, ∃ e', x.2.2 = some e' ∧ (e = x.2.1 ∨ e = e')
  writers : ∀ {p}, p ∈ rest.writers ↔ ∃ x ∈ done, x.2.2 = some p.1 ∧ p.2 = ι x.1.2.output

/-- **What the graph has become after some slots.** -/
def Connected (c c₁ : Circuit) (G : Net) (ι : Vertex → Vertex) (done : List Filling) (g' : Graph) : Prop :=
  Alters c₁.graph g' (fun m => ∃ s ∈ done.map (slotOf c.graph ι), SlotLink G s m)
    (touched c₁.graph (done.map (slotOf c.graph ι)))

lemma Connected.concat {c₁ : Circuit} {G : Net} {ι : Vertex → Vertex} {done : List Filling} {x : Filling}
    {g' g'' : Graph} {P : Link → Prop} {t : Vertex → NodeKind → NodeKind} (hg : Connected c c₁ G ι done g')
    (halters : Alters g' g'' P t) (hlinks : ∀ m, P m ↔ SlotLink G (slotOf c.graph ι x) m)
    (htouched : ∀ v k, c₁.graph.kind? v = some k →
      t v (touched c₁.graph (c.slotsAt ι done) v k) = touched c₁.graph (c.slotsAt ι (done ++ [x])) v k) :
    Connected c c₁ G ι (done ++ [x]) g'' :=
  (Alters.trans hg halters).congr (fun m => by simp [hlinks, or_and_right, exists_or]) htouched

namespace Ready

variable {c₁ : Circuit} {G : Net} {ι : Vertex → Vertex} {xs done : List Filling} {x : Filling} {todo : List Filling} {g' : Graph} {v : Vertex} {k : NodeKind}
  {s : Slot} {l m : Link}

lemma of_graph {c2 : Circuit} (h : Ready c c₁ G ι xs) (hg : c2.graph = c₁.graph) : Ready c c2 G ι xs where
  slotted := h.slotted
  framed := h.framed
  union := hg ▸ h.union
  old := hg ▸ h.old
  valid := hg ▸ h.valid
  simple := hg ▸ h.simple
  kept := hg ▸ h.kept
  entry := h.entry
  exit := h.exit
  nodup := h.nodup

lemma get?_entry (h : Ready c c₁ G ι xs) (hx : x ∈ xs) : c.graph.edges.get? x.2.1 = some (slotOf c.graph ι x).entry := by
  obtain ⟨l, hl⟩ := h.entry hx
  unfold slotOf
  rw [hl]
  rfl

lemma get?_exit (h : Ready c c₁ G ι xs) (hx : x ∈ xs) {e : Edge} (he : x.2.2 = some e) :
    ∃ l, c.graph.edges.get? e = some l ∧ (slotOf c.graph ι x).exit = some l := by
  obtain ⟨l, hl⟩ := h.exit hx he
  refine ⟨l, hl, ?_⟩
  unfold slotOf
  rw [he]
  exact hl

lemma mem_slots (hx : x ∈ xs) : slotOf c.graph ι x ∈ c.slotsAt ι xs := mem_map_of_mem hx

section

variable (h : Ready c c₁ G ι xs)
include h

variable (hxs : xs = done ++ x :: todo) (hg : Connected c c₁ G ι done g')
  (hcopies : copies.getEnds x.1.2 = .ok (x.1.2.map ι)) (hleft : LeftBy c.graph c₁.graph ι done rest) {e : Edge}

include hxs in
lemma ne_of_done (hs : s ∈ c.slotsAt ι done) : s ∈ c.slotsAt ι xs ∧ s ≠ slotOf c.graph ι x := by
  have hnodup := h.nodup
  subst hxs
  refine ⟨by rw [slotsAt, map_append]; exact mem_append_left _ hs, ?_⟩
  rw [map_append, map_cons, nodup_append] at hnodup
  exact hnodup.2.2 s hs _ mem_cons_self

include hxs hg in
lemma new (hm : SlotLink G (slotOf c.graph ι x) m) : ¬ g'.HasLink m := by
  have hx : x ∈ xs := by simp [hxs]
  rw [hg.links]
  rintro (hl | ⟨s, hs, hms⟩)
  · obtain ⟨hH, hG⟩ := h.slotted.slotLink_new (mem_slots hx) hm
    exact ((h.union.link m).mp hl).elim hH hG
  · obtain ⟨hs, hne⟩ := h.ne_of_done hxs hs
    exact hne (h.slotted.slotLink_unique hs (mem_slots hx) hms hm rfl)

lemma discards_host (hs : s ∈ c.slotsAt ι xs) (hd : discards c₁.graph s v) : c.IsOutput v := by
  obtain ⟨_, ⟨x, hx, rfl⟩, k, hk, hout⟩ := discards_cases hd
  obtain ⟨k', hk'⟩ := kind?_of_signature (h.slotted.host_exit hs hx)
  cases mem_unique (h.old hk') hk
  refine (h.framed.isEnd_iff hk').mp ?_
  cases k with
  | output kind => rfl
  | input kind => cases hout
  | create => cases hout
  | discard => rfl
  | op o => cases hout

lemma discards_ne_guest (hs : s ∈ c.slotsAt ι xs) (hv : (G.signature? v).isSome) : ¬ discards c₁.graph s v := by
  intro hd
  obtain ⟨_, ⟨x, hx, rfl⟩, _⟩ := discards_cases hd
  exact h.slotted.sides_ne (h.slotted.host_exit hs hx) hv rfl

include hxs in
lemma touched_input : touched c₁.graph (c.slotsAt ι done) (slotOf c.graph ι x).input k = k := by
  have hx : x ∈ xs := by simp [hxs]
  refine touched_of_none (fun s hs _ heq => ?_) fun s hs => h.discards_ne_guest (h.ne_of_done hxs hs).1
    (h.slotted.live_input (mem_slots hx))
  obtain ⟨hs, hne⟩ := h.ne_of_done hxs hs
  exact hne (h.slotted.input_injective hs (mem_slots hx) heq)

include hxs in
lemma touched_output : touched c₁.graph (c.slotsAt ι done) (slotOf c.graph ι x).output k = k := by
  have hx : x ∈ xs := by simp [hxs]
  refine touched_of_none (fun s hs _ heq => ?_) fun s hs => h.discards_ne_guest (h.ne_of_done hxs hs).1
    (h.slotted.live_output (mem_slots hx))
  exact h.slotted.input_ne_output (h.ne_of_done hxs hs).1 (mem_slots hx) heq

include hxs in
lemma touched_source : touched c₁.graph (c.slotsAt ι done) (slotOf c.graph ι x).entry.source.vertex k = k := by
  have hx : x ∈ xs := by simp [hxs]
  refine touched_of_none (fun s hs _ heq => ?_) fun s hs hd => ?_
  · exact h.slotted.sides_ne (h.slotted.host_source (mem_slots hx)) (h.slotted.live_input (h.ne_of_done hxs hs).1) heq.symm
  · exact h.slotted.host_complete.source_open (h.slotted.entry_link (mem_slots hx)) (h.discards_host (h.ne_of_done hxs hs).1 hd)

include hxs hg hcopies hleft in
lemma connectSlot_read (hexit : x.2.2 = none) :
    ∃ rest' g'', connectSlot copies rest x { c₁ with graph := g' } = .ok rest' { c₁ with graph := g'' } ∧
      Connected c c₁ G ι (done ++ [x]) g'' ∧ LeftBy c.graph c₁.graph ι (done ++ [x]) rest' := by
  have hx : x ∈ xs := by simp [hxs]
  have hnone : (slotOf c.graph ι x).exit = none := by unfold slotOf; rw [hexit]; rfl
  -- the readers of the copied input are those of the replacement
  have hreads : ∀ l, g'.HasLink l → l.source = ⟨(slotOf c.graph ι x).input, 0⟩ → G.link l := by
    intro l hl hsource
    rcases (hg.links l).mp hl with hl | ⟨s, hs, hms⟩
    · rcases (h.union.link l).mp hl with hl | hl
      · exact absurd (congrArg Pin.vertex hsource)
          (h.slotted.sides_ne (h.slotted.host_live hl).1 (h.slotted.live_input (mem_slots hx)))
      · exact hl
    · exact absurd hsource (h.slotted.slotLink_source (mem_slots hx) (h.ne_of_done hxs hs).1 hms)
  obtain ⟨g'', hrun, hgrow⟩ := connectReads_run (c := { c₁ with graph := g' }) (x.1.2.map ι) rest
    hg.valid hg.simple (hg.kept (h.kept (h.get?_entry hx)))
    (fun l hl hsource hk => h.new hxs hg (.read hnone (hreads l hl hsource) hsource hk))
  have hslot : connectSlot copies rest x { c₁ with graph := g' } = .ok
      { rest with dropped := rest.dropped ++ [ι x.1.2.input, ι x.1.2.output] } { c₁ with graph := g'' } :=
    (connectSlot_of_none hcopies hexit).trans hrun
  refine ⟨_, g'', hslot, hg.concat hgrow.alters (fun m => ⟨?_, fun hm => ?_⟩) fun v k hk => ?_, ?_⟩
  · rintro ⟨l, hl, hsource, hk, rfl⟩
    exact .read hnone (hreads l hl hsource) hsource hk
  · cases hm with
    | entry he => rw [hnone] at he; cases he
    | exit he => rw [hnone] at he; cases he
    | @read l _ hl hsource hk =>
      exact ⟨l, (hg.links l).mpr (.inl ((h.union.link l).mpr (.inr hl))), hsource, hk, rfl⟩
  · rw [slotsAt, slotsAt, map_append, map_singleton, touched_append]
    have hr : resets c₁.graph (slotOf c.graph ι x) = false := by unfold resets; rw [hnone]; rfl
    have hd : discards c₁.graph (slotOf c.graph ι x) v = false := by
      unfold discards; rw [hnone]; exact Bool.and_false _
    rw [hr, hd, Bool.false_and, Bool.or_false, Bool.or_false]
    rfl
  · refine ⟨?_, ?_, fun {e} => ?_, fun {p} => ?_⟩
    · have hsplice : splicedBy c₁.graph (slotOf c.graph ι x) = [] := by unfold splicedBy; rw [hnone]; rfl
      rw [map_append, map_singleton, flatMap_append, flatMap_singleton, ← hleft.spliced, hsplice, append_nil]
    · have hdrop : droppedBy (slotOf c.graph ι x) = [ι x.1.2.input, ι x.1.2.output] := by
        unfold droppedBy; rw [hnone]; rfl
      rw [map_append, map_singleton, flatMap_append, flatMap_singleton, ← hleft.dropped, hdrop]
    · rw [hleft.crossed]
      simp [hexit, or_and_right, exists_or]
    · rw [hleft.writers]
      simp [hexit, or_and_right, exists_or]

include hxs in
lemma touched_step {e : Link} {ki ko kb : NodeKind} (hexit : (slotOf c.graph ι x).exit = some e)
    (hki : c₁.graph.kind? (slotOf c.graph ι x).input = some ki)
    (hko : c₁.graph.kind? (slotOf c.graph ι x).output = some ko)
    (hkb : c₁.graph.kind? (slotOf c.graph ι x).entry.source.vertex = some kb)
    (hka : c₁.graph.kind? e.target.vertex = some ka) (hk : c₁.graph.kind? v = some k) :
    (if (ko.isDiscard && (touched c₁.graph (c.slotsAt ι done) e.target.vertex ka).isOutput) ∧ v = e.target.vertex then .discard
      else if (ki.isCreate && !kb.isCreate) ∧ v = (slotOf c.graph ι x).input then .op .reset
      else touched c₁.graph (c.slotsAt ι done) v k) = touched c₁.graph (c.slotsAt ι (done ++ [x])) v k := by
  have hx : x ∈ xs := by simp [hxs]
  rw [slotsAt, slotsAt, map_append, map_singleton, touched_append, resets_eq hexit hki hkb, discards_eq hexit hko hka]
  have hne := (h.slotted.sides_ne (h.slotted.host_exit (mem_slots hx) hexit) (h.slotted.live_input (mem_slots hx))).symm
  by_cases hv : v = e.target.vertex
  · -- the end of the host's wire: if another slot discarded it, it stays so
    subst hv
    cases mem_unique hka hk
    have hreset : (c.slotsAt ι done).any (fun s => resets c₁.graph s && s.input = e.target.vertex) = false := by
      rw [List.any_eq_false]
      intro s hs hr
      rw [Bool.and_eq_true, decide_eq_true_eq] at hr
      exact h.slotted.sides_ne (h.slotted.host_exit (mem_slots hx) hexit) (h.slotted.live_input (h.ne_of_done hxs hs).1) hr.2.symm
    have hout : ∀ k : NodeKind, touched c₁.graph (c.slotsAt ι done) e.target.vertex k =
        if (c.slotsAt ι done).any (fun s => discards c₁.graph s e.target.vertex) then .discard else k := by
      intro k
      unfold touched
      rw [hreset]
      rfl
    rw [hout, hreset, if_neg (fun hr => hne hr.2.symm : ¬ (_ ∧ e.target.vertex = (slotOf c.graph ι x).input))]
    cases (c.slotsAt ι done).any (fun s => discards c₁.graph s e.target.vertex) with
    | true => simp [NodeKind.isOutput, hne]
    | false => simp [hne]
  · rw [if_neg fun hd => hv hd.2]
    have hv' : decide (e.target.vertex = v) = false := decide_eq_false fun heq => hv heq.symm
    rw [hv', Bool.and_false, Bool.or_false]
    by_cases hr : (ki.isCreate && !kb.isCreate) ∧ v = (slotOf c.graph ι x).input
    · rw [if_pos hr, hr.1, decide_eq_true hr.2.symm, Bool.and_true, Bool.or_true, if_pos rfl]
    · have hr' : ((ki.isCreate && !kb.isCreate) && decide ((slotOf c.graph ι x).input = v)) = false := by
        rw [Bool.and_eq_false_iff, decide_eq_false_iff_not]
        rcases not_and_or.mp hr with hr | hr
        · exact .inl (by simpa using hr)
        · exact .inr fun heq => hr heq.symm
      rw [if_neg hr, hr', Bool.or_false]
      rfl

lemma kind?_host (hv : (c.graph.net.signature? v).isSome) : ∃ k, c₁.graph.kind? v = some k :=
  (kind?_of_signature hv).imp fun _ hk => h.old hk

lemma kind?_guest (hv : (G.signature? v).isSome) : ∃ k, c₁.graph.kind? v = some k :=
  kind?_of_signature (by rw [h.union.signature_right hv]; exact hv)

lemma exit_injective {y : Filling} (hx : x ∈ xs) (hy : y ∈ xs) (hxe : x.2.2 = some e)
    (hye : y.2.2 = some e) : slotOf c.graph ι x = slotOf c.graph ι y := by
  obtain ⟨l, hl, hlx⟩ := h.get?_exit hx hxe
  obtain ⟨_, hl', hly⟩ := h.get?_exit hy hye
  cases mem_unique hl hl'
  exact h.slotted.exit_unique (mem_slots hx) (mem_slots hy) hlx hly rfl

include hxs in
lemma writers_step (he : x.2.2 = some e) {writers : List (Edge × Vertex)}
    (hw : ∀ {p}, p ∈ writers ↔ ∃ x ∈ done, x.2.2 = some p.1 ∧ p.2 = ι x.1.2.output)
    {p : Edge × Vertex} : p ∈ writers.filter (fun p => p.1 ≠ e) ++ [(e, ι x.1.2.output)] ↔
      ∃ y ∈ done ++ [x], y.2.2 = some p.1 ∧ p.2 = ι y.1.2.output := by
  have hx : x ∈ xs := by simp [hxs]
  rw [mem_append, mem_filter, mem_singleton, hw]
  constructor
  · rintro (⟨⟨y, hy, hye⟩, _⟩ | rfl)
    · exact ⟨y, mem_append_left _ hy, hye⟩
    · exact ⟨x, mem_append_right _ (mem_singleton.mpr rfl), he, rfl⟩
  · rintro ⟨y, hy, hye, hyo⟩
    rcases mem_append.mp hy with hy | hy
    · refine .inl ⟨⟨y, hy, hye, hyo⟩, decide_eq_true fun heq => ?_⟩
      obtain ⟨_, hne⟩ := h.ne_of_done hxs (mem_map_of_mem hy)
      have hyxs : y ∈ xs := by rw [hxs]; exact mem_append_left _ hy
      exact hne (h.exit_injective hyxs hx (heq ▸ hye) he)
    · cases mem_singleton.mp hy
      rw [he] at hye
      exact .inr (Prod.ext (some.inj hye).symm hyo)

include hxs hg hcopies hleft in
lemma connectSlot_wire (hexit : x.2.2 = some e) :
    ∃ rest' g'', connectSlot copies rest x { c₁ with graph := g' } = .ok rest' { c₁ with graph := g'' } ∧
      Connected c c₁ G ι (done ++ [x]) g'' ∧ LeftBy c.graph c₁.graph ι (done ++ [x]) rest' := by
  have hx : x ∈ xs := by simp [hxs]
  have hslot := mem_slots (c := c) (ι := ι) hx
  obtain ⟨l, hl, hsome⟩ := h.get?_exit hx hexit
  obtain ⟨ki, hki⟩ := h.kind?_guest (h.slotted.live_input hslot)
  obtain ⟨_, hko⟩ := h.kind?_guest (h.slotted.live_output hslot)
  obtain ⟨kb, hkb⟩ := h.kind?_host (h.slotted.host_source hslot)
  obtain ⟨_, hka⟩ := h.kind?_host (h.slotted.host_exit hslot hsome)
  -- the slots before this one have left its four vertices as they were
  have hkind : ∀ {v k}, c₁.graph.kind? v = some k → g'.kind? v = some (touched c₁.graph (c.slotsAt ι done) v k) := fun hk => by
    rw [hg.kind?, hk, map_some]
  obtain ⟨g'', hrun, halters⟩ := connectWire_run (c := { c₁ with graph := g' }) (x.1.2.map ι) rest
    hg.valid hg.simple (hg.kept (h.kept (h.get?_entry hx))) (hg.kept (h.kept hl))
    ((hkind hki).trans (congrArg some (h.touched_input hxs))) ((hkind hko).trans (congrArg some (h.touched_output hxs)))
    ((hkind hkb).trans (congrArg some (h.touched_source hxs))) (hkind hka)
    (h.slotted.input_ne_output hslot hslot).symm
    (h.slotted.sides_ne (h.slotted.host_exit hslot hsome) (h.slotted.live_input hslot))
    (h.new hxs hg (.entry hsome)) (h.new hxs hg (.exit hsome))
  refine ⟨_, g'', (connectSlot_of_some hcopies hexit).trans hrun, hg.concat halters (fun m => ⟨?_, fun hm => ?_⟩)
    fun v k hk => h.touched_step hxs hsome hki hko hkb hka hk, ?_⟩
  · rintro (rfl | rfl)
    · exact .entry hsome
    · exact .exit hsome
  · cases hm with
    | entry _ => exact .inl rfl
    | @exit y hy =>
      cases mem_unique hsome hy
      exact .inr rfl
    | read hnone _ _ _ => rw [hsome] at hnone; cases hnone
  · refine ⟨?_, ?_, fun {e'} => ?_, h.writers_step hxs hexit hleft.writers⟩
    · have hsplice : splicedBy c₁.graph (slotOf c.graph ι x) = if (ki.isCreate && !kb.isCreate) then
          [ι x.1.2.output] else [ι x.1.2.input, ι x.1.2.output] := by
        unfold splicedBy
        rw [resets_eq hsome hki hkb, hsome]
        rfl
      rw [map_append, map_singleton, flatMap_append, flatMap_singleton, ← hleft.spliced, hsplice]
      rfl
    · have hdrop : droppedBy (slotOf c.graph ι x) = [] := by unfold droppedBy; rw [hsome]; rfl
      rw [map_append, map_singleton, flatMap_append, flatMap_singleton, ← hleft.dropped, hdrop, append_nil]
      rfl
    · show ((rest.crossed.add x.2.1).add e).contains e' ↔ _
      rw [contains_add, contains_add, hleft.crossed]
      simp only [mem_append, mem_singleton, or_and_right, exists_or, exists_eq_left, hexit, some.injEq, exists_eq_left']
      exact or_rotate.trans or_left_comm

lemma connectSlots_run (copies : Copies) (hcopies : ∀ x ∈ xs, copies.getEnds x.1.2 = .ok (x.1.2.map ι)) :
    ∃ rest g', xs.foldlM (connectSlot copies) {} c₁ = .ok rest { c₁ with graph := g' } ∧
      Connected c c₁ G ι xs g' ∧ LeftBy c.graph c₁.graph ι xs rest := by
  have hstart : Connected c c₁ G ι [] c₁.graph :=
    (Grows.refl h.valid h.simple).alters.congr (fun m => by simp) fun v k _ => rfl
  have hempty : LeftBy c.graph c₁.graph ι [] {} :=
    ⟨rfl, rfl, fun {e} => by simp [SortedMap.contains], by simp⟩
  obtain ⟨rest, _, hrun, g', rfl, hg, hleft⟩ := foldlM_of_prefix (l := xs)
    (fun done rest c' => ∃ g', c' = { c₁ with graph := g' } ∧ Connected c c₁ G ι done g' ∧ LeftBy c.graph c₁.graph ι done rest)
    (by
      rintro done x todo rest _ hxs ⟨g', rfl, hg, hleft⟩
      have hends := hcopies x (by simp [hxs])
      cases hexit : x.2.2 with
      | none =>
        obtain ⟨rest', g'', hrun, hnext⟩ := h.connectSlot_read hxs hg hends hleft hexit
        exact ⟨rest', _, hrun, g'', rfl, hnext⟩
      | some e =>
        obtain ⟨rest', g'', hrun, hnext⟩ := h.connectSlot_wire hxs hg hends hleft hexit
        exact ⟨rest', _, hrun, g'', rfl, hnext⟩)
    ⟨c₁.graph, rfl, hstart, hempty⟩
  exact ⟨rest, g', hrun, hg, hleft⟩

end

end Ready

/-! ## Reads that leave the hole -/

/-- The link leaves a pin from which a slot leaves. -/
def Matched (slots : List Slot) (l : Link) : Prop := ∃ s ∈ slots, ∃ x, s.exit = some x ∧ x.source = l.source

/-- The reads of edges of a list, read from the copied outputs. -/
def ReadBy (g : Graph) (slots : List Slot) (es : List Edge) (m : Link) : Prop :=
  ∃ e ∈ es, ∃ l, g.edges.get? e = some l ∧ ∃ s ∈ slots, ∃ x, s.exit = some x ∧ x.source = l.source ∧
    m = ⟨⟨s.output, 0⟩, l.target, .boolean⟩

namespace Ready

variable {c₁ : Circuit} {G : Net} {ι : Vertex → Vertex} {xs : List Filling} {g' : Graph} {s : Slot} {l m x : Link} {p : Pin} {es : List Edge} {e : Edge}

section

variable (h : Ready c c₁ G ι xs)
include h

variable (hwriters : ∀ {p}, p ∈ rest.writers ↔ ∃ x ∈ xs, x.2.2 = some p.1 ∧ p.2 = ι x.1.2.output)
  (hkept : ∀ {e m}, c.graph.edges.get? e = some m → g'.edges.get? e = some m)

include hwriters hkept in
lemma writerAt?_eq_some {w : Vertex} (hw : rest.writerAt? g' p = some w) :
    ∃ s ∈ c.slotsAt ι xs, ∃ x, s.exit = some x ∧ x.source = p ∧ w = s.output := by
  obtain ⟨q, hfind, rfl⟩ := map_eq_some_iff.mp hw
  obtain ⟨y, hy, hye, hyo⟩ := hwriters.mp (mem_of_find?_eq_some hfind)
  obtain ⟨l, hl, hexit⟩ := h.get?_exit hy hye
  have hany := find?_some hfind
  rw [hkept hl, any_some, decide_eq_true_eq] at hany
  exact ⟨_, mem_slots hy, l, hexit, hany, hyo⟩

include hwriters hkept in
lemma writerAt?_of_exit (hs : s ∈ c.slotsAt ι xs) (hx : s.exit = some x) : rest.writerAt? g' x.source = some s.output := by
  obtain ⟨y, hy, rfl⟩ := mem_map.mp hs
  obtain ⟨e, hye, hl⟩ := bind_eq_some_iff.mp hx
  have hsome : (rest.writerAt? g' x.source).isSome := by
    unfold Leftovers.writerAt?
    rw [isSome_map, find?_isSome]
    exact ⟨(e, ι y.1.2.output), hwriters.mpr ⟨y, hy, hye, rfl⟩, by rw [hkept hl]; simp⟩
  obtain ⟨w, hw⟩ := isSome_iff_exists.mp hsome
  obtain ⟨t, ht, z, hz, hsource, rfl⟩ := h.writerAt?_eq_some hwriters hkept hw
  rw [hw, h.slotted.exit_unique ht hs hz hx hsource]

include hwriters hkept in
lemma writerAt?_of_not_matched (hnot : ¬ Matched (c.slotsAt ι xs) l) : rest.writerAt? g' l.source = none := by
  cases hw : rest.writerAt? g' l.source with
  | none => rfl
  | some w =>
    obtain ⟨s, hs, x, hx, hsource, _⟩ := h.writerAt?_eq_some hwriters hkept hw
    exact absurd ⟨s, hs, x, hx, hsource⟩ hnot

lemma new_read (hg : Connected c c₁ G ι xs g') (hs : s ∈ c.slotsAt ι xs) :
    ¬ g'.HasLink ⟨⟨s.output, 0⟩, l.target, .boolean⟩ := by
  rw [hg.links]
  rintro (hl | ⟨t, ht, hm⟩)
  · rcases (h.union.link _).mp hl with hl | hl
    · exact h.slotted.not_both (h.slotted.host_live hl).1 (h.slotted.live_output hs)
    · exact h.slotted.source_ne_output hs hl rfl
  · generalize hmm : (⟨⟨s.output, 0⟩, l.target, .boolean⟩ : Link) = m at hm
    cases hm with
    | entry hx =>
      exact h.slotted.sides_ne (h.slotted.host_source ht) (h.slotted.live_output hs) (congrArg Pin.vertex (Link.mk.inj hmm).1).symm
    | exit hx =>
      exact WireKind.ne_boolean (h.slotted.entry_linear ht hx) (Link.mk.inj hmm).2.2.symm
    | read _ _ _ _ =>
      exact h.slotted.sides_ne (h.slotted.host_source ht) (h.slotted.live_output hs) (congrArg Pin.vertex (Link.mk.inj hmm).1).symm

lemma connectRead_run (hsimple : c.graph.Simple) (hg : Connected c c₁ G ι xs g')
    (hleft : LeftBy c.graph c₁.graph ι xs rest) (hnodup : es.Nodup)
    (hes : ∀ e ∈ es, ∃ l, c.graph.edges.get? e = some l ∧ Matched (c.slotsAt ι xs) l) :
    ∃ rest' g'', es.foldlM connectRead rest { c₁ with graph := g' } = .ok rest' { c₁ with graph := g'' } ∧
      Grows g' g'' (ReadBy c.graph (c.slotsAt ι xs) es) ∧
      (∀ {e}, rest'.crossed.contains e ↔ e ∈ es ∨ rest.crossed.contains e) ∧
      rest' = { rest with crossed := rest'.crossed } := by
  obtain ⟨rest', _, hrun, g'', rfl, hgrow, hcrossed, hrest⟩ := foldlM_of_prefix (f := connectRead) (l := es)
    (fun done rest' c' => ∃ g'', c' = { c₁ with graph := g'' } ∧ Grows g' g'' (ReadBy c.graph (c.slotsAt ι xs) done) ∧
      (∀ {e}, rest'.crossed.contains e ↔ e ∈ done ∨ rest.crossed.contains e) ∧
      rest' = { rest with crossed := rest'.crossed })
    (by
      rintro done e todo rest' _ hdone ⟨g'', rfl, hgrow, hcrossed, hrest⟩
      obtain ⟨l, hl, s, hs, x, hx, hsource⟩ := hes e (by simp [hdone])
      have hkept : ∀ {e m}, c.graph.edges.get? e = some m → g''.edges.get? e = some m := fun he =>
        hgrow.kept (hg.kept (h.kept he))
      have hwriter : rest'.writerAt? g'' l.source = some s.output :=
        hsource ▸ h.writerAt?_of_exit (by rw [hrest]; exact hleft.writers) hkept hs hx
      have hnew : ¬ g''.HasLink ⟨⟨s.output, 0⟩, l.target, .boolean⟩ := by
        rw [hgrow.links]
        rintro (hm | ⟨e', he', l', hl', t, ht, y, hy, hsource', hm⟩)
        · exact h.new_read hg hs hm
        -- reads that end in one place are one edge, which is not listed twice
        · have hll : l = l' := h.slotted.host_fitted.in_unique ⟨e, hl⟩ ⟨e', hl'⟩ (Link.mk.inj hm).2.1
          rw [hdone, nodup_append] at hnodup
          exact hnodup.2.2 e' he' e mem_cons_self (hsimple hl' (hll ▸ hl))
      obtain ⟨k, hk⟩ := h.kind?_guest (h.slotted.live_output hs)
      obtain ⟨g3, hadd, hgrow3⟩ := addLink_grows hgrow.valid hgrow.simple hnew
        (hgrow.live.mpr (hg.live.mpr (live_of_kind? hk))) (hgrow.valid.target_live (l := l) ⟨e, hkept hl⟩)
      refine ⟨{ rest' with crossed := rest'.crossed.add e }, { c₁ with graph := g3 }, ?_, g3, rfl,
        (hgrow.trans hgrow3).congr fun m => ⟨?_, ?_⟩, fun {e'} => ?_, by rw [hrest]⟩
      · unfold connectRead
        rw [bind_ok (ask_of_ok (link_eq_ok.mpr (hkept hl))), bind_get, hwriter]
        dsimp only
        rw [bind_ok (onGraph_of_ok hadd)]
        rfl
      · rintro (⟨e', he', hm⟩ | rfl)
        · exact ⟨e', mem_append_left _ he', hm⟩
        · exact ⟨e, mem_append_right _ (mem_singleton.mpr rfl), l, hl, s, hs, x, hx, hsource, rfl⟩
      · rintro ⟨e', he', l', hl', t, ht, y, hy, hsource', rfl⟩
        rcases mem_append.mp he' with he' | he'
        · exact .inl ⟨e', he', l', hl', t, ht, y, hy, hsource', rfl⟩
        · cases mem_singleton.mp he'
          cases mem_unique hl hl'
          exact .inr (by rw [h.slotted.exit_unique ht hs hy hx (hsource'.trans hsource.symm)])
      · show (rest'.crossed.add e).contains e' ↔ _
        rw [contains_add, hcrossed, mem_append, mem_singleton]
        tauto)
    (b := rest) ⟨g', rfl, (Grows.refl hg.valid hg.simple).congr (by simp [ReadBy]), by simp, rfl⟩
  exact ⟨rest', g'', hrun, hgrow, hcrossed, hrest⟩

/-- **A read that stands beside no slot is refused**, when the copies already stand in the host. -/
theorem connectRead_error (hsimple : c.graph.Simple) (hg : Connected c c₁ G ι xs g')
    (hleft : LeftBy c.graph c₁.graph ι xs rest) (hnodup : es.Nodup) (hes : ∀ e ∈ es, ∃ l, c.graph.edges.get? e = some l)
    (hnot : ∃ e ∈ es, ¬ ∃ l, c.graph.edges.get? e = some l ∧ Matched (c.slotsAt ι xs) l) :
    ∃ g'', es.foldlM connectRead rest { c₁ with graph := g' } = .error (.invalid .holeReadUnmatched) { c₁ with graph := g'' } ∧
      g''.vertices = g'.vertices := by
  obtain ⟨_, e, _, rfl, hbefore, he⟩ := exists_first_not hnot
  obtain ⟨rest', g'', hrun, hgrow, _, hrest⟩ :=
    h.connectRead_run hsimple hg hleft (nodup_append.mp hnodup).1 hbefore
  obtain ⟨l, hl⟩ := hes e (by simp)
  have hkept : ∀ {e m}, c.graph.edges.get? e = some m → g''.edges.get? e = some m := fun he =>
    hgrow.kept (hg.kept (h.kept he))
  have hwriter : rest'.writerAt? g'' l.source = none := h.writerAt?_of_not_matched (by rw [hrest]; exact hleft.writers) hkept
    fun hmatched => he ⟨l, hl, hmatched⟩
  refine ⟨g'', foldlM_of_error hrun ?_, hgrow.vertices⟩
  unfold connectRead
  rw [bind_ok (ask_of_ok (link_eq_ok.mpr (hkept hl))), bind_get, hwriter]
  rfl

end

end Ready

end Circuit

end Wireloom
