import Wireloom.Proofs.Replay

/-!
# `Circuit.Corresponds`, `Circuit.Leads` — the links of chained circuits

Where the wire of a common unit is joined, what came from the start of the guest's wire comes from the last pin of the
host's. `Leads` says for each pin of the guest where the links out of it come from.
-/

namespace Wireloom

/-- Another operation in the place of an operation. -/
def NodeKind.mapOp (f : Op → Op) : NodeKind → NodeKind
  | .op o => .op (f o)
  | k => k

@[simp] lemma NodeKind.mapOp_id (k : NodeKind) : k.mapOp id = k := by cases k <;> rfl

lemma NodeKind.signature_mapOp {f : Op → Op} (hf : ∀ op, (f op).signature = op.signature) (k : NodeKind) :
    (k.mapOp f).signature = k.signature := by
  cases k with
  | op o => exact hf o
  | _ => rfl

lemma exists_factor {P : Vertex → Prop} {f : Vertex → Vertex} (hf : ∀ {v w}, P v → P w → f v = f w → v = w)
    (g : Vertex → Vertex) : ∃ j : Vertex → Vertex, ∀ v, P v → j (f v) = g v := by
  have hinjective : Function.Injective fun x : { v // P v } => f x.1 := fun x y heq => Subtype.ext (hf x.2 y.2 heq)
  exact ⟨Function.extend (fun x : { v // P v } => f x.1) (fun x => g x.1) id, fun v hv =>
    hinjective.extend_apply _ _ ⟨v, hv⟩⟩

/-- The command of a matched vertex. -/
def Command.move (f : Op → Op) (ι : Vertex → Vertex) (cmd : Command) : Command :=
  ⟨f cmd.op, cmd.args, cmd.opgroup, ι cmd.vertex⟩

namespace Circuit

open Wireloom.Graph List Option SortedMap

variable {c c' : Circuit} {unit unit' : Pin → UnitId} {f : Op → Op} {ι : Vertex → Vertex} {u : UnitId} {v w : Vertex}
  {l m : Link} {p : Pin}

/-- **The vertices of two circuits correspond**: one to one, with `f` applied to the operations and the same opgroups,
    the same links between the same pins, and the same ends of units. -/
structure Corresponds (f : Op → Op) (ι : Vertex → Vertex) (c c' : Circuit) : Prop where
  injective : ∀ {v w}, c.graph.Live v → c.graph.Live w → ι v = ι w → v = w
  surjective : ∀ {w}, c'.graph.Live w → ∃ v, c.graph.Live v ∧ ι v = w
  node : ∀ {v n}, c.graph.vertices.get? v = some n →
    ∃ n', c'.graph.vertices.get? (ι v) = some n' ∧ n'.kind = n.kind.mapOp f ∧ n'.opgroup = n.opgroup
  link : ∀ m, c'.graph.HasLink m ↔ ∃ l, c.graph.HasLink l ∧ m = l.map ι
  boundary : ∀ u, c'.boundary.get? u = (c.boundary.get? u).map (Ends.map ι)

/-- **Two circuits are isomorphic**: their vertices correspond with the same operations, and they have the same opgroups. -/
def Isomorphic (c c' : Circuit) : Prop := (∃ ι, Corresponds id ι c c') ∧ c'.opgroups = c.opgroups

/-! ## Arguments -/

lemma units_eq_of_links (h : c.Wired unit) (h' : c'.Wired unit') {n n' : Node} (hn : c.graph.vertices.get? v = some n)
    (hn' : c'.graph.vertices.get? w = some n') (hv : ¬ c.IsInput v) (hw : ¬ c'.IsInput w)
    (hsignature : n'.kind.signature = n.kind.signature)
    (hlinks : ∀ m, c'.graph.HasLink m → m.target.vertex = w → ∃ l, c.graph.HasLink l ∧ l.target.vertex = v ∧
      l.target.index = m.target.index ∧ unit l.source = unit' m.source) :
    (c'.graph.inLinks w).map (fun p => unit' p.2.source) = (c.graph.inLinks v).map fun p => unit p.2.source := by
  refine h'.units_eq hn' hw ?_ fun m hm ht => ?_
  · rw [length_map, h.length_inLinks hn hv, hsignature]
  · obtain ⟨l, hl, hlv, hindex, hunit⟩ := hlinks m hm ht
    rw [← hindex, h.units_getElem? hn hv hl hlv, hunit]

lemma commandAt_eq_of_links (h : c.Wired unit) (h' : c'.Wired unit')
    (hnode : c'.graph.vertices.get? v = c.graph.vertices.get? v)
    (hlinks : ∀ m, c'.graph.HasLink m → m.target.vertex = v →
      ∃ l, c.graph.HasLink l ∧ l.target = m.target ∧ unit l.source = unit' m.source) :
    c'.commandAt unit' v = c.commandAt unit v := by
  unfold commandAt
  rw [hnode]
  split
  · next hn =>
    rw [units_eq_of_links h h' hn (hnode.trans hn) (h.not_isInput_of_op (kind?_of_get? hn))
      (h'.not_isInput_of_op (kind?_of_get? (hnode.trans hn))) rfl fun m hm ht => ?_]
    obtain ⟨l, hl, htarget, hunit⟩ := hlinks m hm ht
    exact ⟨l, hl, htarget ▸ ht, congrArg _ htarget, hunit⟩
  · rfl

lemma Wired.wireAt_of_copy (h' : c'.Wired unit') {n n' : Node} (hn : c.graph.vertices.get? v = some n)
    (hn' : c'.graph.vertices.get? w = some n') (hsignature : n'.kind.signature = n.kind.signature)
    (hm : c'.graph.HasLink m) (hw : w = m.target.vertex) : c.graph.net.wireAt ⟨v, m.target.index⟩ = some m.kind := by
  have hk : c.graph.kind? v = some n.kind := kind?_of_get? hn
  have hk' : c'.graph.kind? m.target.vertex = some n'.kind := by rw [kind?, ← hw, hn']; rfl
  rw [wireAt_of_kind? hk, ← h'.threaded.target_wire hm, wireAt_of_kind? hk', hsignature]

namespace Corresponds

section Matched

variable (hc : Corresponds f ι c c')
include hc

lemma kind {k : NodeKind} (hk : c.graph.kind? v = some k) : c'.graph.kind? (ι v) = some (k.mapOp f) := by
  obtain ⟨n, hn, rfl⟩ := map_eq_some_iff.mp hk
  obtain ⟨_, hn', hkind, _⟩ := hc.node hn
  rw [kind?, hn', map_some, hkind]

lemma live (hv : c.graph.Live v) : c'.graph.Live (ι v) := by
  obtain ⟨k, hk⟩ := live_iff_kind?.mp hv
  exact live_of_kind? (hc.kind hk)

variable (h : c.Wired unit) (h' : c'.Wired unit') (hf : ∀ op, (f op).signature = op.signature) (hv : c.graph.Live v)

include hf in
lemma isImage : c.graph.net.IsImage ι c'.graph.net where
  signature {v s} hs := by
    obtain ⟨k, hk, rfl⟩ := map_eq_some_iff.mp hs
    rw [signature_of_kind? (hc.kind hk), NodeKind.signature_mapOp hf]
  origin {w s} hs := by
    obtain ⟨_, hk', rfl⟩ := map_eq_some_iff.mp hs
    obtain ⟨v, hv, rfl⟩ := hc.surjective (live_of_kind? hk')
    obtain ⟨k, hk⟩ := live_iff_kind?.mp hv
    refine ⟨v, ?_, rfl⟩
    rw [hc.kind hk] at hk'
    cases hk'
    rw [signature_of_kind? hk, NodeKind.signature_mapOp hf]
  injective hs ht heq :=
    hc.injective (signature?_iff.mp (by rw [hs]; rfl)) (signature?_iff.mp (by rw [ht]; rfl)) heq
  link := hc.link

lemma boundary_eq : c'.boundary = c.boundary.mapValues fun _ => Ends.map ι :=
  ext_get? fun u => by rw [hc.boundary, get?_mapValues]

lemma units_eq : c'.units = c.units := by
  unfold units
  rw [hc.boundary_eq]
  exact map_map

lemma hasUnit_eq (u : UnitId) : c'.hasUnit u = c.hasUnit u := by
  show (c'.boundary.get? u).isSome = (c.boundary.get? u).isSome
  rw [hc.boundary, isSome_map]

lemma onWire (hu : c.OnWire u p) : c'.OnWire u (p.map ι) := by
  obtain ⟨ends, hends, hpath⟩ := hu
  refine ⟨ends.map ι, by rw [hc.boundary, hends]; rfl, ?_⟩
  induction hpath with
  | refl => exact .refl
  | tail _ hstep ih =>
    obtain ⟨k, hk, hl⟩ := hstep
    exact ih.tail ⟨k, hk, (hc.link _).mpr ⟨_, hl, rfl⟩⟩

include h h' in
lemma unit_source (hl : c.graph.HasLink l) : unit' (l.source.map ι) = unit l.source :=
  h'.unit_of_onWire (hc.onWire (h.onWire_unit (h.threaded.source_wire hl) (WireKind.isLinear_carrier _)))

include h hf hv in
lemma before_iff (hw : c.graph.Live w) : c'.graph.net.Before (ι v) (ι w) ↔ c.graph.net.Before v w := by
  have himage := hc.isImage hf
  constructor
  · intro hvw
    generalize hx : ι v = x at hvw
    generalize hy : ι w = y at hvw
    cases hvw with
    | link hm =>
      obtain ⟨l, hl, rfl⟩ := (hc.link _).mp hm
      rw [hc.injective hv (h.valid.source_live hl) hx, hc.injective hw (h.valid.target_live hl) hy]
      exact .link hl
    | hazard ha hb hak hbl hs =>
      obtain ⟨a, ha', rfl⟩ := (hc.link _).mp ha
      obtain ⟨b, hb', rfl⟩ := (hc.link _).mp hb
      rw [hc.injective hv (h.valid.target_live ha') hx, hc.injective hw (h.valid.target_live hb') hy]
      exact .hazard ha' hb' hak hbl (himage.pin_injective (h.threaded.source_wire ha') (h.threaded.source_wire hb') hs)
  · intro hvw
    cases hvw with
    | @link l hl => exact .link (l := l.map ι) ((hc.link _).mpr ⟨l, hl, rfl⟩)
    | @hazard a b ha hb hak hbl hs =>
      exact .hazard (a := a.map ι) (b := b.map ι) ((hc.link _).mpr ⟨a, ha, rfl⟩)
        ((hc.link _).mpr ⟨b, hb, rfl⟩) hak hbl (congrArg (Pin.map ι) hs)

/-! ## Commands -/

include h h' hf in
lemma walk_eq (hmade : c'.graph.bySequence.map Prod.fst = (c.graph.bySequence.map Prod.fst).map ι) :
    c'.graph.walk = c.graph.walk.map ι := by
  have hlive : ∀ v ∈ c.graph.bySequence.map Prod.fst, c.graph.Live v := fun v hv =>
    (mem_map_bySequence h.valid).mp hv
  unfold walk walkBy
  dsimp only
  rw [hmade, length_map]
  refine walkFor_map (fun v hv w hw => hc.injective (hlive v hv) (hlive w hw)) fun v hv w hw => ?_
  rw [mem_pairs_iff h'.valid h'.threaded, mem_pairs_iff h.valid h.threaded]
  exact hc.before_iff h hf (hlive v hv) (hlive w hw)

include h h' hf hv in
lemma commandAt_eq : c'.commandAt unit' (ι v) = (c.commandAt unit v).map (Command.move f ι) := by
  obtain ⟨n, hn⟩ := live_iff.mp hv
  obtain ⟨n', hn', hkind, hog⟩ := hc.node hn
  obtain ⟨kind, og, _⟩ := n
  obtain ⟨_, _, _⟩ := n'
  cases hkind
  cases hog
  unfold commandAt
  rw [hn, hn']
  cases kind with
  | op o =>
    have hk : c.graph.kind? v = some (.op o) := kind?_of_get? hn
    have hk' := hc.kind hk
    have hargs := units_eq_of_links h h' hn hn' (h.not_isInput_of_op hk) (h'.not_isInput_of_op hk') (hf o) (fun m hm ht => by
        obtain ⟨l, hl, rfl⟩ := (hc.link m).mp hm
        exact ⟨l, hl, hc.injective (h.valid.target_live hl) hv ht, rfl, (hc.unit_source h h' hl).symm⟩)
    exact congrArg (fun args => some (⟨f o, args, og, ι v⟩ : Command)) hargs
  | _ => rfl

/-- **Circuits that correspond and were made in the same order have the same commands**, but for `f`. -/
theorem commands_eq (h : c.WellFormed) (h' : c'.WellFormed) (hf : ∀ op, (f op).signature = op.signature)
    (hmade : c'.graph.bySequence.map Prod.fst = (c.graph.bySequence.map Prod.fst).map ι) :
    c'.commands = c.commands.map (Command.move f ι) := by
  rw [h'.wired.commands_eq, h.wired.commands_eq, hc.walk_eq h.wired h'.wired hf hmade, filterMap_map, map_filterMap]
  refine filterMap_congr fun v hv => ?_
  exact hc.commandAt_eq h.wired h'.wired hf (h.wired.mem_walk.mp hv)

end Matched

/-! ## One way is enough -/

/-- **Links that are all moved are all there is**: where nothing is moved to, the pin would have been fed before. -/
theorem of_links (h : c.Wired unit) (h' : c'.Wired unit') (hf : ∀ op, (f op).signature = op.signature)
    (injective : ∀ {v w}, c.graph.Live v → c.graph.Live w → ι v = ι w → v = w)
    (surjective : ∀ {w}, c'.graph.Live w → ∃ v, c.graph.Live v ∧ ι v = w)
    (node : ∀ {v n}, c.graph.vertices.get? v = some n →
      ∃ n', c'.graph.vertices.get? (ι v) = some n' ∧ n'.kind = n.kind.mapOp f ∧ n'.opgroup = n.opgroup)
    (link : ∀ l, c.graph.HasLink l → c'.graph.HasLink (l.map ι))
    (boundary : ∀ u, c'.boundary.get? u = (c.boundary.get? u).map (Ends.map ι)) : Corresponds f ι c c' where
  injective := injective
  surjective := surjective
  node := node
  boundary := boundary
  link m := by
    constructor
    · intro hm
      obtain ⟨v, hv, hvm⟩ := surjective (h'.valid.target_live hm)
      obtain ⟨n, hn⟩ := live_iff.mp hv
      obtain ⟨n', hn', hkind, _⟩ := node hn
      have hwire := h'.wireAt_of_copy hn hn' (by rw [hkind, NodeKind.signature_mapOp hf]) hm hvm
      have hin : ¬ c.IsInput v := by
        rintro ⟨u, ends, hu, rfl⟩
        refine h'.target_open hm ⟨u, ends.map ι, ?_, hvm⟩
        rw [boundary, hu]
        rfl
      obtain ⟨l, hl, ht⟩ := (h.complete.fed_iff hwire).mpr hin
      refine ⟨l, hl, h'.threaded.in_unique hm (link l hl) ?_⟩
      show m.target = l.target.map ι
      rw [ht]
      exact Pin.ext hvm.symm rfl
    · rintro ⟨l, hl, rfl⟩
      exact link l hl

end Corresponds

/-! # `Circuit.Leads` -/

variable {guest d : Circuit} {unitG unitD : Pin → UnitId} {host next ends : Ends} {k : NodeKind} {q : Pin}
  {f g : Vertex → Vertex}

lemma Fits.agree {w : UnitId} (hfits : c.Fits guest) (h : c.RegistersAgree) (hu : u ∈ guest.units) (hw : w ∈ c.units)
    (heq : w.register = u.register) : w.kind = u.kind ∧ w.index.length = u.index.length := by
  by_cases hmem : u ∈ c.units
  · exact h w hw u hmem heq
  · exact hfits.registers u hu hmem w hw heq

/-! ## Where the links of the guest come from -/

/-- **The pin that a pin of the guest stands for**: its copy, or where the wire of the unit is joined, the pin that led
    to the end of the host's wire. -/
inductive Leads (ι : Vertex → Vertex) (c guest : Circuit) (p : Pin) : Pin → Prop
  | copied : ¬ c.Spliced guest p.vertex → Leads ι c guest p (p.map ι)
  | joined {u : UnitId} {host next : Ends} {l : Link} : c.boundary.get? u = some host →
      guest.boundary.get? u = some next → guest.graph.kind? next.input ≠ some .create → p.vertex = next.input →
      c.graph.HasLink l → l.target.vertex = host.output → Leads ι c guest p l.source

lemma WasEnd.isOutput (h : c.WasEnd guest v) : c.IsOutput v := by
  obtain ⟨u, host, _, hhost, _, rfl⟩ := h
  exact ⟨u, host, hhost, rfl⟩

lemma WasStart.isInput (h : c.WasStart guest v) : guest.IsInput v := by
  obtain ⟨u, _, next, _, hnext, rfl⟩ := h
  exact ⟨u, next, hnext, rfl⟩

lemma not_wasStart_of_none (hguest : guest.Wired unitG) (hhost : c.boundary.get? u = none)
    (hnext : guest.boundary.get? u = some next) : ¬ c.WasStart guest next.input := by
  rintro ⟨_, _, _, hhost', hnext', heq⟩
  rw [← hguest.unit_input hnext, ← heq, hguest.unit_input hnext', hhost'] at hhost
  cases hhost

lemma not_wasEnd_of_none (hc : c.Wired unit) (hhost : c.boundary.get? u = some host)
    (hnext : guest.boundary.get? u = none) : ¬ c.WasEnd guest host.output := by
  rintro ⟨_, _, _, hhost', hnext', heq⟩
  rw [← hc.unit_output hhost, ← heq, hc.unit_output hhost', hnext'] at hnext
  cases hnext

lemma Wired.exists_last_link (h : c.Wired unit) (hu : c.boundary.get? u = some host) :
    ∃ l, c.graph.HasLink l ∧ l.target = ⟨host.output, 0⟩ ∧ l.kind = u.kind.wire := by
  have hwire := Net.wireAt_of_single (h.signature_output hu)
  obtain ⟨l, hl, ht⟩ := (h.complete.fed_iff hwire).mpr fun hin =>
    h.not_isOutput hin ⟨u, host, hu, rfl⟩
  exact ⟨l, hl, ht, h.kind_of_output hu hl (congrArg Pin.vertex ht)⟩

lemma Wired.onWire_last (h : c.Wired unit) (hu : c.boundary.get? u = some host) (hl : c.graph.HasLink l)
    (ht : l.target.vertex = host.output) : c.OnWire u l.source := by
  have hkind := h.kind_of_output hu hl ht
  have hpin := (Net.pin_of_single (ht ▸ h.signature_output hu) (h.threaded.target_wire hl)).1
  refine (h.wellFormed.onWire_iff_of_joined ⟨l.kind, ?_, ?_⟩).mpr (h.onWire_output hu)
  · rw [hkind]
    exact WireKind.isLinear_wire _
  · rw [← ht, ← hpin]
    exact hl

lemma exists_leads (hc : c.Wired unit) (ι : Vertex → Vertex) (guest : Circuit) (p : Pin) : ∃ q, Leads ι c guest p q := by
  by_cases hp : c.Spliced guest p.vertex
  · obtain ⟨⟨u, _, _, hhost, hnext, hv⟩, hk⟩ := hp
    obtain ⟨l, hl, ht, _⟩ := hc.exists_last_link hhost
    exact ⟨l.source, .joined hhost hnext (hv ▸ hk) hv.symm hl (by rw [ht])⟩
  · exact ⟨p.map ι, .copied hp⟩

lemma Leads.eq_map (h : Leads ι c guest p q) (hp : ¬ guest.IsInput p.vertex) : q = p.map ι := by
  cases h with
  | copied _ => rfl
  | joined _ hnext _ hv _ _ => exact absurd ⟨_, _, hnext, hv.symm⟩ hp

lemma Chained.link_of_leads (hch : Chained ι c guest d) (hl : guest.graph.HasLink l) (hq : Leads ι c guest l.source q) :
    d.graph.HasLink ⟨q, l.target.map ι, l.kind⟩ := by
  cases hq with
  | copied hv => exact hch.guest_link hl hv
  | joined hhost hnext hk hv hm ht => exact hch.joined_link hhost hnext hk hm ht hl hv

/-! ## All links -/

/-- **The links of chained circuits.** -/
inductive ChainedLink (ι : Vertex → Vertex) (c guest : Circuit) : Link → Prop
  | host {l : Link} : c.graph.HasLink l → ¬ c.WasEnd guest l.target.vertex → ChainedLink ι c guest l
  | guest {l : Link} {q : Pin} : guest.graph.HasLink l → Leads ι c guest l.source q →
      ChainedLink ι c guest ⟨q, l.target.map ι, l.kind⟩
  | reset {u : UnitId} {host next : Ends} {l : Link} : c.boundary.get? u = some host →
      guest.boundary.get? u = some next → guest.graph.kind? next.input = some .create → c.graph.HasLink l →
      l.target.vertex = host.output → ChainedLink ι c guest ⟨l.source, ⟨ι next.input, 0⟩, l.kind⟩

namespace Chained

section Ends

variable (hch : Chained ι c guest d)
include hch

variable (hends : d.boundary.get? u = some ends) (hc : c.Wired unit)
  (hu : c.boundary.get? u = some host) (hnext : guest.boundary.get? u = none)

include hu in
lemma input_host : ∃ ends, d.boundary.get? u = some ends ∧ ends.input = host.input := by
  rw [hch.boundary, hu]
  cases guest.boundary.get? u with
  | none => exact ⟨_, rfl, rfl⟩
  | some next => exact ⟨_, rfl, rfl⟩

lemma output_guest (hnext : guest.boundary.get? u = some next) :
    ∃ ends, d.boundary.get? u = some ends ∧ ends.output = ι next.output := by
  rw [hch.boundary, hnext]
  cases c.boundary.get? u with
  | none => exact ⟨_, rfl, rfl⟩
  | some host => exact ⟨_, rfl, rfl⟩

include hu hnext in
lemma ends_host : d.boundary.get? u = some host := by
  rw [hch.boundary, hu, hnext]
  rfl

lemma ends_guest (hu : c.boundary.get? u = none) (hnext : guest.boundary.get? u = some next) :
    d.boundary.get? u = some (next.map ι) := by
  rw [hch.boundary, hu, hnext]
  rfl

include hends in
lemma input_cases : (∃ host, c.boundary.get? u = some host ∧ ends.input = host.input) ∨
      (c.boundary.get? u = none ∧ ∃ next, guest.boundary.get? u = some next ∧ ends = next.map ι) := by
  rw [hch.boundary] at hends
  cases hhost : c.boundary.get? u <;> cases hnext : guest.boundary.get? u <;> rw [hhost, hnext] at hends <;> cases hends
  · exact .inr ⟨rfl, _, rfl, rfl⟩
  · exact .inl ⟨_, rfl, rfl⟩
  · exact .inl ⟨_, rfl, rfl⟩

include hends in
lemma output_cases : (∃ next, guest.boundary.get? u = some next ∧ ends.output = ι next.output) ∨
      (guest.boundary.get? u = none ∧ c.boundary.get? u = some ends) := by
  rw [hch.boundary] at hends
  cases hhost : c.boundary.get? u <;> cases hnext : guest.boundary.get? u <;> rw [hhost, hnext] at hends <;> cases hends
  · exact .inl ⟨_, rfl, rfl⟩
  · exact .inr ⟨rfl, rfl⟩
  · exact .inl ⟨_, rfl, rfl⟩

lemma mem_units : u ∈ d.units ↔ u ∈ c.units ∨ u ∈ guest.units := by
  rw [mem_units_iff, mem_units_iff, mem_units_iff, hch.boundary]
  cases c.boundary.get? u <;> cases guest.boundary.get? u <;> simp [joinEnds]

lemma kind_host (hk : c.graph.kind? v = some k) (hv : ¬ c.WasEnd guest v) : d.graph.kind? v = some k := by
  obtain ⟨n, hn, rfl⟩ := map_eq_some_iff.mp hk
  rw [kind?, hch.host_node hn hv]
  rfl

lemma kind_guest (hk : guest.graph.kind? v = some k) (hv : ¬ c.WasStart guest v) : d.graph.kind? (ι v) = some k := by
  obtain ⟨n, hn, rfl⟩ := map_eq_some_iff.mp hk
  obtain ⟨_, hn', _, hkind, _⟩ := hch.guest_node hn fun hspliced => hv hspliced.1
  rw [kind?, hn', map_some, hkind hv]

lemma kind_reset (hhost : c.boundary.get? u = some host) (hnext : guest.boundary.get? u = some next)
    (hk : guest.graph.kind? next.input = some .create) : d.graph.kind? (ι next.input) = some (.op .reset) := by
  obtain ⟨n, hn, _⟩ := map_eq_some_iff.mp hk
  obtain ⟨_, hn', _, _, hkind⟩ := hch.guest_node hn fun hspliced => hspliced.2 hk
  rw [kind?, hn', map_some, hkind ⟨u, host, next, hhost, hnext, rfl⟩]

include hc hu in
lemma kind_input_host : d.graph.kind? host.input = c.graph.kind? host.input := by
  obtain ⟨k, hk, _⟩ := hc.starts hu
  rw [hk]
  exact hch.kind_host hk fun hend => hc.not_isOutput ⟨u, host, hu, rfl⟩ hend.isOutput

lemma kind_input_guest (hguest : guest.Wired unitG) (hu : c.boundary.get? u = none)
    (hnext : guest.boundary.get? u = some next) : d.graph.kind? (ι next.input) = guest.graph.kind? next.input := by
  obtain ⟨k, hk, _⟩ := hguest.starts hnext
  rw [hk]
  exact hch.kind_guest hk (not_wasStart_of_none hguest hu hnext)

include hc hu hnext in
lemma kind_output_host : d.graph.kind? host.output = c.graph.kind? host.output := by
  obtain ⟨k, hk, _⟩ := hc.stops hu
  rw [hk]
  exact hch.kind_host hk (not_wasEnd_of_none hc hu hnext)

lemma kind_output_guest (hguest : guest.Wired unitG) (hnext : guest.boundary.get? u = some next) :
    d.graph.kind? (ι next.output) = guest.graph.kind? next.output := by
  obtain ⟨k, hk, _⟩ := hguest.stops hnext
  rw [hk]
  exact hch.kind_guest hk fun hstart => hguest.not_isOutput hstart.isInput ⟨u, next, hnext, rfl⟩

lemma not_spliced (hv : guest.graph.Live v) (hlive : d.graph.Live (ι v)) : ¬ c.Spliced guest v := by
  rcases hch.cases hlive with ⟨hold, _⟩ | ⟨x, hx, _, heq⟩
  · exact absurd hold (hch.fresh hv)
  · rwa [hch.injective hv hx heq.symm]

lemma live_host (hv : c.graph.Live v) (hend : ¬ c.WasEnd guest v) : d.graph.Live v := by
  obtain ⟨k, hk⟩ := live_iff_kind?.mp hv
  exact live_of_kind? (hch.kind_host hk hend)

lemma live_guest (hv : guest.graph.Live v) (hspliced : ¬ c.Spliced guest v) : d.graph.Live (ι v) := by
  obtain ⟨n, hn⟩ := live_iff.mp hv
  obtain ⟨n', hn', _⟩ := hch.guest_node hn hspliced
  exact live_of_get? hn'

lemma not_wasEnd (hv : c.graph.Live v) (hlive : d.graph.Live v) : ¬ c.WasEnd guest v := by
  rcases hch.cases hlive with ⟨_, hend⟩ | ⟨x, hx, _, heq⟩
  · exact hend
  · exact absurd (heq ▸ hv) (hch.fresh hx)

end Ends

section Wires

variable (hch : Chained ι c guest d) (hc : c.Wired unit) (hguest : guest.Wired unitG) (hd : d.Wired unitD)

include hch hc hd in
lemma link_into_host (hm : d.graph.HasLink m) (hv : c.graph.Live m.target.vertex)
    (hend : ¬ c.WasEnd guest m.target.vertex) : c.graph.HasLink m := by
  obtain ⟨k, hk⟩ := live_iff_kind?.mp hv
  have hsame : d.graph.net.wireAt m.target = c.graph.net.wireAt m.target := by
    show ((d.graph.kind? m.target.vertex).map _).bind _ = ((c.graph.kind? m.target.vertex).map _).bind _
    rw [hk, hch.kind_host hk hend]
  have hwire := hd.threaded.target_wire hm
  rw [hsame] at hwire
  have hin : ¬ c.IsInput m.target.vertex := by
    rintro ⟨u, _, hu, heq⟩
    obtain ⟨ends, hends, hinput⟩ := hch.input_host hu
    exact hd.target_open hm ⟨u, ends, hends, hinput.trans heq⟩
  -- the pin was fed in the host, and that link is still there
  obtain ⟨l, hl, ht⟩ := (hc.complete.fed_iff hwire).mpr hin
  rw [hd.threaded.in_unique hm (hch.host_link hl (ht ▸ hend)) ht.symm]
  exact hl

include hch hc hguest hd in
lemma link_into_guest (hm : d.graph.HasLink m) (hv : guest.graph.Live v) (hspliced : ¬ c.Spliced guest v)
    (ht : ι v = m.target.vertex) : ChainedLink ι c guest m := by
  obtain ⟨k, hk⟩ := live_iff_kind?.mp hv
  by_cases hstart : c.WasStart guest v
  · -- a start that was joined and not spliced out is a reset, which has a single pin
    obtain ⟨u, host, next, hhost, hnext, rfl⟩ := hstart
    have hcreate := not_not.mp fun hk => hspliced ⟨⟨u, host, next, hhost, hnext, rfl⟩, hk⟩
    have hreset := hch.kind_reset hhost hnext hcreate
    have hpin : m.target = ⟨ι next.input, 0⟩ := by
      rw [(Net.pin_of_single (signature_of_kind? (ht ▸ hreset)) (hd.threaded.target_wire hm)).1, ht]
    obtain ⟨l, hl, hlt, _⟩ := hc.exists_last_link hhost
    have hlo : l.target.vertex = host.output := by rw [hlt]
    rw [hd.threaded.in_unique hm (hch.reset_link hhost hnext hcreate hl hlo) hpin]
    exact .reset hhost hnext hcreate hl hlo
  · have hsame : d.graph.net.wireAt m.target = guest.graph.net.wireAt ⟨v, m.target.index⟩ := by
      show ((d.graph.kind? m.target.vertex).map _).bind _ = ((guest.graph.kind? v).map _).bind _
      rw [hk, ← ht, hch.kind_guest hk hstart]
    have hwire := hd.threaded.target_wire hm
    rw [hsame] at hwire
    have hin : ¬ guest.IsInput v := by
      rintro ⟨u, next, hnext, rfl⟩
      cases hhost : c.boundary.get? u with
      | none => exact hd.target_open hm ⟨u, next.map ι, hch.ends_guest hhost hnext, ht⟩
      | some host => exact hstart ⟨u, host, next, hhost, hnext, rfl⟩
    obtain ⟨l, hl, hlt⟩ := (hguest.complete.fed_iff hwire).mpr hin
    obtain ⟨q, hq⟩ := exists_leads hc ι guest l.source
    rw [hd.threaded.in_unique hm (hch.link_of_leads hl hq) (by rw [hlt]; exact Pin.ext ht.symm rfl)]
    exact .guest hl hq

include hch hc hguest hd in
lemma link_iff : d.graph.HasLink m ↔ ChainedLink ι c guest m := by
  constructor
  · intro hm
    rcases hch.cases (hd.valid.target_live hm) with ⟨hv, hend⟩ | ⟨v, hv, hspliced, ht⟩
    · exact .host (hch.link_into_host hc hd hm hv hend) hend
    · exact hch.link_into_guest hc hguest hd hm hv hspliced ht
  · intro hm
    cases hm with
    | host hl hend => exact hch.host_link hl hend
    | guest hl hq => exact hch.link_of_leads hl hq
    | reset hhost hnext hk hl ht => exact hch.reset_link hhost hnext hk hl ht

include hch hc hguest hd in
lemma link_into_output (hends : d.boundary.get? u = some ends) (hm : d.graph.HasLink m)
    (ht : m.target.vertex = ends.output) : (∃ next l q, guest.boundary.get? u = some next ∧ guest.graph.HasLink l ∧
        l.target.vertex = next.output ∧ Leads ι c guest l.source q ∧ m = ⟨q, l.target.map ι, l.kind⟩) ∨
      (guest.boundary.get? u = none ∧ c.boundary.get? u = some ends ∧ c.graph.HasLink m) := by
  rcases hch.output_cases hends with ⟨next, hnext, houtput⟩ | ⟨hnone, hhost⟩
  · have hlive := hguest.live_output hnext
    cases (hch.link_iff hc hguest hd).mp hm with
    | host hl _ => exact absurd (houtput ▸ ht ▸ hc.valid.target_live hl) (hch.fresh hlive)
    | @guest l q hl hq =>
      have hlo := hch.injective (hguest.valid.target_live hl) hlive (ht.trans houtput)
      exact .inl ⟨next, l, q, hnext, hl, hlo, hq, rfl⟩
    | @reset _ _ next' _ _ hnext' hcreate _ _ =>
      have heq := hch.injective (live_of_kind? hcreate) hlive (ht.trans houtput)
      refine absurd ⟨u, next, hnext, rfl⟩ (hguest.not_isOutput ⟨_, next', hnext', heq⟩)
  · have hend := not_wasEnd_of_none hc hhost hnone
    exact .inr ⟨hnone, hhost, hch.link_into_host hc hd hm (ht ▸ hc.live_output hhost) (ht ▸ hend)⟩

/-! ## Wires -/

include hch hc in
lemma onWire_host (hp : c.OnWire u p) (hv : ¬ c.WasEnd guest p.vertex) : d.OnWire u p := by
  obtain ⟨_, hu, hpath⟩ := hp
  obtain ⟨ends, hends, hinput⟩ := hch.input_host hu
  refine ⟨ends, hends, hinput ▸ ?_⟩
  -- along the path in the host: no pin on it but the last can be a joined end
  induction hpath with
  | refl => exact .refl
  | @tail q p _ hstep ih =>
    obtain ⟨k, hk, hl⟩ := hstep
    have hq : ¬ c.WasEnd guest q.vertex := fun hq => hc.complete.source_open hl hq.isOutput
    exact (ih hq).tail ⟨k, hk, hch.host_link hl hv⟩

include hch hc in
lemma onWire_source (hp : c.OnWire u l.source) (hl : c.graph.HasLink l) : d.OnWire u l.source :=
  hch.onWire_host hc hp fun hend => hc.complete.source_open hl hend.isOutput

include hch hc hguest in
/-- What the start of a wire of the guest stands for is on the wire: it starts there, with a reset, or with the last
    pin of the host's. -/
lemma onWire_start (hnext : guest.boundary.get? u = some next) (hq : Leads ι c guest ⟨next.input, 0⟩ q) : d.OnWire u q := by
  have hsame : ∀ {u' next'}, guest.boundary.get? u' = some next' → next.input = next'.input → u' = u := by
    intro u' next' hnext' hv
    rw [← hguest.unit_input hnext, hv, hguest.unit_input hnext']
  cases hq with
  | copied hv =>
    cases hhost : c.boundary.get? u with
    | none => exact ⟨next.map ι, hch.ends_guest hhost hnext, .refl⟩
    | some host =>
      -- the copy is a reset, one step on from the last pin of the host
      have hcreate := not_not.mp fun hk => hv ⟨⟨u, host, next, hhost, hnext, rfl⟩, hk⟩
      obtain ⟨l, hl, ht, hkind⟩ := hc.exists_last_link hhost
      have hlo : l.target.vertex = host.output := by rw [ht]
      obtain ⟨ends, hends, hpath⟩ := hch.onWire_source hc (hc.onWire_last hhost hl hlo) hl
      refine ⟨ends, hends, hpath.tail ⟨l.kind, ?_, hch.reset_link hhost hnext hcreate hl hlo⟩⟩
      rw [hkind]
      exact WireKind.isLinear_wire _
  | _ hhost hnext' _ hv hl ht =>
    cases hsame hnext' hv
    exact hch.onWire_source hc (hc.onWire_last hhost hl ht) hl

include hch hc hguest in
lemma onWire_leads (hp : guest.OnWire u p) (hq : Leads ι c guest p q) : d.OnWire u q := by
  obtain ⟨_, hnext, hpath⟩ := hp
  induction hpath generalizing q with
  | refl => exact hch.onWire_start hc hguest hnext hq
  | @tail x p _ hstep ih =>
    obtain ⟨k, hk, hl⟩ := hstep
    obtain ⟨y, hy⟩ := exists_leads hc ι guest x
    obtain ⟨ends, hends, hpath⟩ := ih hy
    rw [hq.eq_map (hguest.target_open hl)]
    exact ⟨ends, hends, hpath.tail ⟨k, hk, hch.link_of_leads hl hy⟩⟩

include hch hc hd in
lemma unit_host (hl : c.graph.HasLink l) : unitD l.source = unit l.source :=
  hd.unit_of_onWire (hch.onWire_source hc (hc.onWire_unit (hc.threaded.source_wire hl) (WireKind.isLinear_carrier _)) hl)

include hch hc hguest hd in
lemma unit_leads (hl : guest.graph.HasLink l) (hq : Leads ι c guest l.source q) : unitD q = unitG l.source :=
  hd.unit_of_onWire (hch.onWire_leads hc hguest
    (hguest.onWire_unit (hguest.threaded.source_wire hl) (WireKind.isLinear_carrier _)) hq)

end Wires

end Chained

/-! ## Maps -/

open Classical in
/-- A map on the vertices of chained circuits: `f` where they come from the host, and `g` where they are copies. -/
noncomputable def glue (ι : Vertex → Vertex) (c guest : Circuit) (f g : Vertex → Vertex) (w : Vertex) : Vertex :=
  if c.graph.Live w then f w else if h : ∃ v, guest.graph.Live v ∧ ι v = w then g h.choose else w

lemma glue_host (hv : c.graph.Live v) : glue ι c guest f g v = f v := if_pos hv

lemma glue_copy (hfresh : ¬ c.graph.Live (ι v)) (hv : guest.graph.Live v)
    (hinjective : ∀ {v w}, guest.graph.Live v → guest.graph.Live w → ι v = ι w → v = w) :
    glue ι c guest f g (ι v) = g v := by
  have hex : ∃ x, guest.graph.Live x ∧ ι x = ι v := ⟨v, hv, rfl⟩
  unfold glue
  rw [if_neg hfresh, dif_pos hex, hinjective hex.choose_spec.1 hv hex.choose_spec.2]

lemma Chained.glue_guest (hch : Chained ι c guest d) (hv : guest.graph.Live v) :
    glue ι c guest f g (ι v) = g v := glue_copy (hch.fresh hv) hv hch.injective

/-! # `Circuit.sequential` is associative -/

variable {a b ab bc l r : Circuit} {κ κ' μ μ' : Vertex → Vertex} {n : Node}

/-- **Three circuits in a row**, put together from the left (`ab` and `l`) and from the right (`bc` and `r`). -/
structure Brackets (a b c ab bc l r : Circuit) (κ κ' μ μ' : Vertex → Vertex) : Prop where
  first : a.WellFormed
  middle : b.WellFormed
  last : c.WellFormed
  head : IsAppended κ a b ab
  left : IsAppended κ' ab c l
  tail : IsAppended μ b c bc
  right : IsAppended μ' a bc r

/-- Where the vertices of the circuit that was put together from the left stand if it is put together from the right. -/
noncomputable def rebracket (a b c ab : Circuit) (κ κ' μ μ' : Vertex → Vertex) : Vertex → Vertex :=
  glue κ' ab c (glue κ a b id μ') (μ' ∘ μ)

namespace Brackets

variable (h : Brackets a b c ab bc l r κ κ' μ μ')

noncomputable abbrev move (_ : Brackets a b c ab bc l r κ κ' μ μ') : Vertex → Vertex := rebracket a b c ab κ κ' μ μ'

include h

/-! ## Which ends are joined -/

lemma wasEnd_first (hv : a.graph.Live v) : a.WasEnd bc v ↔ a.WasEnd b v ∨ ab.WasEnd c v := by
  constructor
  · rintro ⟨u, host, ends, ha, hbc, rfl⟩
    cases hb : b.boundary.get? u with
    | some next => exact .inl ⟨u, host, next, ha, hb, rfl⟩
    | _ =>
      -- the middle circuit passes the end on to the last one
      rcases h.tail.input_cases hbc with ⟨_, hb', _⟩ | ⟨_, next, hc, _⟩
      · rw [hb] at hb'
        cases hb'
      · exact .inr ⟨u, host, next, h.head.ends_host ha hb, hc, rfl⟩
  · rintro (⟨u, host, next, ha, hb, rfl⟩ | ⟨u, ends, next, hab, hc, rfl⟩)
    · obtain ⟨ends, hbc, _⟩ := h.tail.input_host hb
      exact ⟨u, host, ends, ha, hbc, rfl⟩
    · rcases h.head.output_cases hab with ⟨host, hb, heq⟩ | ⟨hb, ha⟩
      · exact absurd (heq ▸ hv) (h.head.fresh (h.middle.live_output hb))
      · exact ⟨u, ends, _, ha, h.tail.ends_guest hb hc, rfl⟩

lemma wasEnd_middle (hv : b.graph.Live v) : ab.WasEnd c (κ v) ↔ b.WasEnd c v := by
  constructor
  · rintro ⟨u, ends, next, hab, hc, heq⟩
    rcases h.head.output_cases hab with ⟨host, hb, heq'⟩ | ⟨_, ha⟩
    · exact ⟨u, host, next, hb, hc, h.head.injective (h.middle.live_output hb) hv (heq'.symm.trans heq)⟩
    · exact absurd (heq ▸ h.first.live_output ha) (h.head.fresh hv)
  · rintro ⟨u, host, next, hb, hc, rfl⟩
    obtain ⟨ends, hab, heq⟩ := h.head.output_guest hb
    exact ⟨u, ends, next, hab, hc, heq⟩

lemma wasStart_middle (hv : b.graph.Live v) : a.WasStart bc v ↔ a.WasStart b v := by
  constructor
  · rintro ⟨u, host, ends, ha, hbc, rfl⟩
    rcases h.tail.input_cases hbc with ⟨next, hb, heq⟩ | ⟨_, next, hc, rfl⟩
    · exact ⟨u, host, next, ha, hb, heq.symm⟩
    · exact absurd hv (h.tail.fresh (h.last.live_input hc))
  · rintro ⟨u, host, next, ha, hb, rfl⟩
    obtain ⟨ends, hbc, heq⟩ := h.tail.input_host hb
    exact ⟨u, host, ends, ha, hbc, heq⟩

lemma wasStart_last (hv : c.graph.Live v) : ab.WasStart c v ↔ b.WasStart c v ∨ a.WasStart bc (μ v) := by
  constructor
  · rintro ⟨u, ends, next, hab, hc, rfl⟩
    rcases h.head.output_cases hab with ⟨host, hb, _⟩ | ⟨hb, ha⟩
    · exact .inl ⟨u, host, next, hb, hc, rfl⟩
    · exact .inr ⟨u, ends, next.map μ, ha, h.tail.ends_guest hb hc, rfl⟩
  · rintro (⟨u, host, next, hb, hc, rfl⟩ | ⟨u, host, ends, ha, hbc, heq⟩)
    · obtain ⟨ends, hab, _⟩ := h.head.output_guest hb
      exact ⟨u, ends, next, hab, hc, rfl⟩
    · obtain ⟨ends', hab, _⟩ := h.head.input_host ha
      rcases h.tail.input_cases hbc with ⟨_, hb, heq'⟩ | ⟨_, next, hc, rfl⟩
      · exact absurd ((heq'.symm.trans heq) ▸ h.middle.live_input hb) (h.tail.fresh hv)
      · exact ⟨u, ends', next, hab, hc, h.tail.injective (h.last.live_input hc) hv heq⟩

lemma spliced_middle (hv : b.graph.Live v) (hend : ¬ b.WasEnd c v) : a.Spliced bc v ↔ a.Spliced b v := by
  obtain ⟨k, hk⟩ := Graph.live_iff_kind?.mp hv
  unfold Spliced
  rw [h.wasStart_middle hv, hk, h.tail.kind_host hk hend]

/-- A created qubit of the last circuit that the middle one has too is reset when these two are put together. -/
lemma not_wasStart_reset (hstart : b.WasStart c v) (hcreate : c.graph.kind? v = some .create) : ¬ a.WasStart bc (μ v) := by
  obtain ⟨u, _, _, hb, hc, rfl⟩ := hstart
  intro hstart'
  exact h.tail.wellFormed.wired.not_isInput_of_op (h.tail.kind_reset hb hc hcreate) hstart'.isInput

lemma spliced_last (hv : c.graph.Live v) : ab.Spliced c v ↔ b.Spliced c v ∨ a.Spliced bc (μ v) := by
  obtain ⟨k, hk⟩ := Graph.live_iff_kind?.mp hv
  constructor
  · rintro ⟨hstart, hcreate⟩
    by_cases hmiddle : b.WasStart c v
    · exact .inl ⟨hmiddle, hcreate⟩
    · refine .inr ⟨((h.wasStart_last hv).mp hstart).resolve_left hmiddle, ?_⟩
      rw [h.tail.kind_guest hk hmiddle, ← hk]
      exact hcreate
  · rintro (⟨hstart, hcreate⟩ | ⟨hstart, hcreate⟩)
    · exact ⟨(h.wasStart_last hv).mpr (.inl hstart), hcreate⟩
    · refine ⟨(h.wasStart_last hv).mpr (.inr hstart), fun hcreate' => ?_⟩
      by_cases hmiddle : b.WasStart c v
      · exact h.not_wasStart_reset hmiddle hcreate' hstart
      · exact hcreate (h.tail.kind_guest hcreate' hmiddle)

/-! ## Vertices -/

lemma rebracket_first (hv : a.graph.Live v) (hend : ¬ a.WasEnd b v) : h.move v = v :=
  (glue_host (h.head.live_host hv hend)).trans (glue_host hv)

lemma rebracket_middle (hv : b.graph.Live v) (hspliced : ¬ a.Spliced b v) : h.move (κ v) = μ' v :=
  (glue_host (h.head.live_guest hv hspliced)).trans (h.head.glue_guest hv)

lemma rebracket_last (hv : c.graph.Live v) : h.move (κ' v) = μ' (μ v) := h.left.glue_guest hv

/-- **The vertices of the circuit that was put together from the left come from one of the three**, and that is where
    they are moved to. -/
theorem cases_left (hw : l.graph.Live w) : (a.graph.Live w ∧ ¬ a.WasEnd b w ∧ ¬ ab.WasEnd c w ∧ h.move w = w) ∨
    (∃ v, b.graph.Live v ∧ ¬ a.Spliced b v ∧ ¬ b.WasEnd c v ∧ κ v = w ∧ bc.graph.Live v ∧ h.move w = μ' v) ∨
    ∃ v, c.graph.Live v ∧ ¬ b.Spliced c v ∧ ¬ a.Spliced bc (μ v) ∧ κ' v = w ∧ bc.graph.Live (μ v) ∧ h.move w = μ' (μ v) := by
  rcases h.left.cases hw with ⟨hab, hend⟩ | ⟨v, hv, hspliced, rfl⟩
  · rcases h.head.cases hab with ⟨ha, hend'⟩ | ⟨v, hb, hspliced, rfl⟩
    · exact .inl ⟨ha, hend', hend, h.rebracket_first ha hend'⟩
    · have hend' := mt (h.wasEnd_middle hb).mpr hend
      exact .inr (.inl ⟨v, hb, hspliced, hend', rfl, h.tail.live_host hb hend', h.rebracket_middle hb hspliced⟩)
  · rw [h.spliced_last hv, not_or] at hspliced
    exact .inr (.inr ⟨v, hv, hspliced.1, hspliced.2, rfl, h.tail.live_guest hv hspliced.1, h.rebracket_last hv⟩)

lemma injective (hv : l.graph.Live v) (hw : l.graph.Live w) (heq : h.move v = h.move w) : v = w := by
  -- vertices of different circuits stay apart, since copies are new where they are made
  rcases h.cases_left hv with ⟨hv, _, _, hvr⟩ | ⟨x, hx, _, _, rfl, hx', hvr⟩ | ⟨x, hx, _, _, rfl, hx', hvr⟩ <;>
    rcases h.cases_left hw with ⟨hw, _, _, hwr⟩ | ⟨y, hy, _, _, rfl, hy', hwr⟩ | ⟨y, hy, _, _, rfl, hy', hwr⟩ <;>
    rw [hvr, hwr] at heq
  · exact heq
  · exact absurd (heq ▸ hv) (h.right.fresh hy')
  · exact absurd (heq ▸ hv) (h.right.fresh hy')
  · exact absurd (heq ▸ hw) (h.right.fresh hx')
  · exact congrArg κ (h.right.injective hx' hy' heq)
  · exact absurd (h.right.injective hx' hy' heq ▸ hx) (h.tail.fresh hy)
  · exact absurd (heq ▸ hw) (h.right.fresh hx')
  · exact absurd (h.right.injective hx' hy' heq ▸ hy) (h.tail.fresh hx)
  · exact congrArg κ' (h.tail.injective hx hy (h.right.injective hx' hy' heq))

lemma surjective (hw : r.graph.Live w) : ∃ v, l.graph.Live v ∧ h.move v = w := by
  rcases h.right.cases hw with ⟨ha, hend⟩ | ⟨x, hx, hspliced, rfl⟩
  · rw [h.wasEnd_first ha, not_or] at hend
    exact ⟨w, h.left.live_host (h.head.live_host ha hend.1) hend.2, h.rebracket_first ha hend.1⟩
  · rcases h.tail.cases hx with ⟨hb, hend⟩ | ⟨y, hc, hspliced', rfl⟩
    · rw [h.spliced_middle hb hend] at hspliced
      exact ⟨κ x, h.left.live_host (h.head.live_guest hb hspliced) (mt (h.wasEnd_middle hb).mp hend),
        h.rebracket_middle hb hspliced⟩
    · have hnot : ¬ ab.Spliced c y := by
        rw [h.spliced_last hc]
        exact not_or.mpr ⟨hspliced', hspliced⟩
      exact ⟨κ' y, h.left.live_guest hc hnot, h.rebracket_last hc⟩

lemma node (hn : l.graph.vertices.get? w = some n) : ∃ n', r.graph.vertices.get? (h.move w) =
    some n' ∧ n'.kind = n.kind.mapOp id ∧ n'.opgroup = n.opgroup := by
  rw [NodeKind.mapOp_id]
  rcases h.cases_left (Graph.live_of_get? hn) with
    ⟨hw, hend, hend', hwr⟩ | ⟨v, hv, hspliced, hend, rfl, _, hwr⟩ | ⟨v, hv, hspliced, hspliced', rfl, _, hwr⟩
  · obtain ⟨n0, hn0⟩ := Graph.live_iff.mp hw
    have hsame := h.left.host_node (h.head.host_node hn0 hend) hend'
    cases mem_unique hn hsame
    have hbc : ¬ a.WasEnd bc w := by
      rw [h.wasEnd_first hw]
      exact not_or.mpr ⟨hend, hend'⟩
    exact ⟨n, by rw [hwr]; exact h.right.host_node hn0 hbc, rfl, rfl⟩
  · obtain ⟨n0, hn0⟩ := Graph.live_iff.mp hv
    obtain ⟨n1, hn1, hog, hkind, hreset⟩ := h.head.guest_node hn0 hspliced
    cases mem_unique hn (h.left.host_node hn1 (mt (h.wasEnd_middle hv).mp hend))
    obtain ⟨n', hn', hog', hkind', hreset'⟩ :=
      h.right.guest_node (h.tail.host_node hn0 hend) (mt (h.spliced_middle hv hend).mp hspliced)
    rw [h.wasStart_middle hv] at hkind' hreset'
    refine ⟨n', hwr ▸ hn', ?_, hog'.trans hog.symm⟩
    by_cases hstart : a.WasStart b v
    · rw [hreset hstart, hreset' hstart]
    · rw [hkind hstart, hkind' hstart]
  · obtain ⟨n0, hn0⟩ := Graph.live_iff.mp hv
    have hstart := h.wasStart_last hv
    have hnot : ¬ ab.Spliced c v := by
      rw [h.spliced_last hv]
      exact not_or.mpr ⟨hspliced, hspliced'⟩
    obtain ⟨n1, hn1, hog, hkind, hreset⟩ := h.left.guest_node hn0 hnot
    cases mem_unique hn hn1
    obtain ⟨_, hn2, hog2, hkind2, hreset2⟩ := h.tail.guest_node hn0 hspliced
    obtain ⟨n', hn', hog', hkind', hreset'⟩ := h.right.guest_node hn2 hspliced'
    refine ⟨n', hwr ▸ hn', ?_, hog'.trans (hog2.trans hog.symm)⟩
    by_cases hmiddle : b.WasStart c v
    · -- reset when the last two are put together, and so no start of a wire after that
      have hcreate := not_not.mp fun hk => hspliced ⟨hmiddle, hk⟩
      rw [hreset (hstart.mpr (.inl hmiddle)), hkind' (h.not_wasStart_reset hmiddle hcreate), hreset2 hmiddle]
    · rw [or_iff_right hmiddle] at hstart
      by_cases hfirst : a.WasStart bc (μ v)
      · rw [hreset (hstart.mpr hfirst), hreset' hfirst]
      · rw [hkind (mt hstart.mp hfirst), hkind' hfirst, hkind2 hmiddle]

lemma boundary (u : UnitId) : r.boundary.get? u = (l.boundary.get? u).map (Ends.map h.move) := by
  have hfirst : ∀ {ends}, a.boundary.get? u = some ends → h.move ends.input = ends.input := fun {ends} ha =>
    h.rebracket_first (h.first.live_input ha) fun hend =>
      h.first.not_isOutput ⟨u, ends, ha, rfl⟩ hend.isOutput
  have hfirst' : ∀ {ends}, a.boundary.get? u = some ends → b.boundary.get? u = none →
      h.move ends.output = ends.output := fun ha hb =>
    h.rebracket_first (h.first.live_output ha) (not_wasEnd_of_none h.first.wired ha hb)
  have hmiddle : ∀ {ends}, a.boundary.get? u = none → b.boundary.get? u = some ends →
      h.move (κ ends.input) = μ' ends.input := fun ha hb =>
    h.rebracket_middle (h.middle.live_input hb) fun hspliced => not_wasStart_of_none h.middle.wired ha hb hspliced.1
  have hmiddle' : ∀ {ends}, b.boundary.get? u = some ends → h.move (κ ends.output) = μ' ends.output := fun {ends} hb =>
    h.rebracket_middle (h.middle.live_output hb) fun hspliced =>
      h.middle.not_isOutput hspliced.1.isInput ⟨u, ends, hb, rfl⟩
  have hlast : ∀ {ends}, c.boundary.get? u = some ends → h.move (κ' ends.input) = μ' (μ ends.input) ∧
        h.move (κ' ends.output) = μ' (μ ends.output) := fun hc =>
    ⟨h.rebracket_last (h.last.live_input hc), h.rebracket_last (h.last.live_output hc)⟩
  rw [h.right.boundary, h.tail.boundary, h.left.boundary, h.head.boundary]
  cases ha : a.boundary.get? u <;> cases hb : b.boundary.get? u <;> cases hc : c.boundary.get? u <;>
    simp [joinEnds, Ends.map, *]

/-! ## Links -/

lemma map_first (hm : a.graph.HasLink m) : m.source.map h.move = m.source :=
  Pin.ext (h.rebracket_first (h.first.valid.source_live hm) fun hend =>
    h.first.complete.source_open hm hend.isOutput) rfl

lemma map_middle (hv : b.graph.Live p.vertex) (hspliced : ¬ a.Spliced b p.vertex) :
    (p.map κ).map h.move = p.map μ' := Pin.ext (h.rebracket_middle hv hspliced) rfl

lemma map_last (hv : c.graph.Live p.vertex) : (p.map κ').map h.move = (p.map μ).map μ' :=
  Pin.ext (h.rebracket_last hv) rfl

/-- What a pin of the middle circuit stands for after the first is moved to what it stands for before the last was put
    on. -/
lemma leads_middle (hm : b.graph.HasLink m) (hq : Leads κ a b m.source q) : Leads μ' a bc m.source (q.map h.move) := by
  have hlive := h.middle.valid.source_live hm
  have hend : ¬ b.WasEnd c m.source.vertex := fun hend => h.middle.complete.source_open hm hend.isOutput
  cases hq with
  | copied hspliced =>
    rw [h.map_middle hlive hspliced]
    exact .copied (mt (h.spliced_middle hlive hend).mp hspliced)
  | @joined u host next _ ha hb hk hv hlast ht =>
    obtain ⟨_, hbc, hinput⟩ := h.tail.input_host hb
    obtain ⟨k, hkind, _⟩ := h.middle.starts hb
    rw [h.map_first hlast]
    refine .joined ha hbc ?_ (hv.trans hinput.symm) hlast ht
    rw [hinput, h.tail.kind_host hkind (hv ▸ hend), ← hkind]
    exact hk

/-- What a pin of the last circuit stands for at the end of the first two is found in two steps from the right. -/
lemma leads_last (hm : c.graph.HasLink m) (hq : Leads κ' ab c m.source q) :
    ∃ x, Leads μ b c m.source x ∧ Leads μ' a bc x (q.map h.move) := by
  have hlive := h.last.valid.source_live hm
  cases hq with
  | copied hspliced =>
    rw [h.spliced_last hlive, not_or] at hspliced
    refine ⟨m.source.map μ, .copied hspliced.1, ?_⟩
    rw [h.map_last hlive]
    exact .copied hspliced.2
  | @joined u ends next _ hab hc hk hv hlast ht =>
    -- the wire that ends there comes from the middle circuit, or from the first past the middle one
    rcases h.head.link_into_output h.first.wired h.middle.wired h.head.wellFormed.wired hab hlast ht with
      ⟨host, m', q, hb, hm', ht', hq, rfl⟩ | ⟨hb, ha, hlast'⟩
    · exact ⟨m'.source, .joined hb hc hk hv hm' ht', h.leads_middle hm' hq⟩
    · have hstart := not_wasStart_of_none h.last.wired hb hc
      obtain ⟨k, hkind, _⟩ := h.last.starts hc
      refine ⟨m.source.map μ, .copied fun hspliced => hstart (hv ▸ hspliced.1), ?_⟩
      rw [h.map_first hlast']
      refine .joined ha (h.tail.ends_guest hb hc) ?_ (congrArg μ hv) hlast' ht
      show bc.graph.kind? (μ next.input) ≠ _
      rw [h.tail.kind_guest hkind hstart, ← hkind]
      exact hk

lemma link_head (hm : ChainedLink κ a b m) (hend : ¬ ab.WasEnd c m.target.vertex) : r.graph.HasLink (m.map h.move) := by
  cases hm with
  | host ha hend' =>
    have hlive := h.first.valid.target_live ha
    have hbc : ¬ a.WasEnd bc m.target.vertex := by
      rw [h.wasEnd_first hlive]
      exact not_or.mpr ⟨hend', hend⟩
    have htarget : m.target.map h.move = m.target :=
      Pin.ext (h.rebracket_first hlive hend') rfl
    show r.graph.HasLink ⟨m.source.map _, m.target.map _, m.kind⟩
    rw [h.map_first ha, htarget]
    exact h.right.host_link ha hbc
  | @guest m q hb hq =>
    have hlive := h.middle.valid.target_live hb
    have hlink := h.tail.host_link hb (mt (h.wasEnd_middle hlive).mpr hend)
    have hspliced : ¬ a.Spliced b m.target.vertex := fun hspliced =>
      h.middle.wired.target_open hb hspliced.1.isInput
    show r.graph.HasLink ⟨q.map _, (m.target.map κ).map _, m.kind⟩
    rw [h.map_middle hlive hspliced]
    exact h.right.link_of_leads hlink (h.leads_middle hb hq)
  | @reset u host next last ha hb hcreate hlast ht =>
    obtain ⟨ends, hbc, hinput⟩ := h.tail.input_host hb
    have hspliced : ¬ a.Spliced b next.input := fun hspliced => hspliced.2 hcreate
    have hkind : bc.graph.kind? ends.input = some .create := by
      rw [hinput]
      exact h.tail.kind_host hcreate fun hend =>
        h.middle.not_isOutput ⟨u, next, hb, rfl⟩ hend.isOutput
    have hlink := h.right.reset_link ha hbc hkind hlast ht
    rw [hinput] at hlink
    show r.graph.HasLink ⟨last.source.map _, (Pin.map κ ⟨next.input, 0⟩).map _, last.kind⟩
    rw [h.map_first hlast, h.map_middle (Graph.live_of_kind? hcreate) hspliced]
    exact hlink

lemma link (hm : l.graph.HasLink m) : r.graph.HasLink (m.map h.move) := by
  have hhead := h.head.wellFormed.wired
  cases (h.left.link_iff hhead h.last.wired h.left.wellFormed.wired).mp hm with
  | host hab hend => exact h.link_head ((h.head.link_iff h.first.wired h.middle.wired hhead).mp hab) hend
  | @guest m q hc hq =>
    obtain ⟨x, hx, hxq⟩ := h.leads_last hc hq
    have hlink := h.right.link_of_leads (h.tail.link_of_leads hc hx) hxq
    show r.graph.HasLink ⟨q.map _, (m.target.map κ').map _, m.kind⟩
    rw [h.map_last (h.last.valid.target_live hc)]
    exact hlink
  | @reset u ends next last hab hc hcreate hlast ht =>
    -- on the right the reset is put in with the middle circuit if that has the unit, and else with the first
    have hlive := Graph.live_of_kind? hcreate
    rcases h.head.link_into_output h.first.wired h.middle.wired hhead hab hlast ht with
      ⟨host, m', q, hb, hm', ht', hq, rfl⟩ | ⟨hb, ha, hlast'⟩
    · have hlink := h.right.link_of_leads (h.tail.reset_link hb hc hcreate hm' ht') (h.leads_middle (m := m') hm' hq)
      show r.graph.HasLink ⟨q.map _, (Pin.map κ' ⟨next.input, 0⟩).map _, m'.kind⟩
      rw [h.map_last hlive]
      exact hlink
    · have hkind := h.tail.kind_guest hcreate (not_wasStart_of_none h.last.wired hb hc)
      have hlink := h.right.reset_link ha (h.tail.ends_guest hb hc) hkind hlast' ht
      show r.graph.HasLink ⟨last.source.map _, (Pin.map κ' ⟨next.input, 0⟩).map _, last.kind⟩
      rw [h.map_first hlast', h.map_last hlive]
      exact hlink

lemma corresponds : Corresponds id h.move l r :=
  .of_links h.left.wellFormed.wired h.right.wellFormed.wired (fun _ => rfl) h.injective h.surjective h.node
    (fun _ hm => h.link hm) h.boundary

end Brackets

/-! ## When three circuits can be put together -/

/-- **Three circuits fit in a row**: each two that meet fit, and the outer ones meet where the middle one does not have
    the unit. -/
structure FitsAll (a b c : Circuit) : Prop where
  first : a.Fits b
  last : b.Fits c
  ends : ∀ {u host next}, a.boundary.get? u = some host → b.boundary.get? u = none → c.boundary.get? u = some next →
    a.graph.kind? host.output = some .discard → c.graph.kind? next.input = some .create
  registers : ∀ u ∈ c.units, ∀ w ∈ a.units, w.register = u.register → w.kind = u.kind ∧ w.index.length = u.index.length
  opgroups : a.opgroups.Agree c.opgroups

variable (ha : a.WellFormed) (hb : b.WellFormed) (hc : c.WellFormed) (hregisters : a.RegistersAgree)

include ha hb hregisters in
/-- **Put together from the left**, the last circuit is checked against the first two together. A unit that one of these
    has is not checked, but then its register agrees already. -/
theorem fits_left_iff (hfits : a.Fits b) (hab : IsAppended κ a b ab) : ab.Fits c ↔ FitsAll a b c := by
  have hagree := hfits.opgroups.unionLeft_iff (o := c.opgroups)
  rw [← hab.opgroups] at hagree
  constructor
  · intro hleft
    obtain ⟨hnames, hnames'⟩ := hagree.mp hleft.opgroups
    refine ⟨hfits, ⟨fun {u host next} hu hnext hdiscard => ?_, fun u hu hnot w hw heq => ?_, hnames'⟩,
      fun {u host next} hu hnone hnext hdiscard => ?_, fun u hu w hw heq => ?_, hnames⟩
    · obtain ⟨ends, hends, houtput⟩ := hab.output_guest hu
      refine hleft.ends hends hnext ?_
      rw [houtput, hab.kind_output_guest hb.wired hu, hdiscard]
    · -- a unit of the first circuit is not new on the left, but its register fits the middle one
      by_cases hmem : u ∈ a.units
      · exact (hfits.agree hregisters hw hmem heq.symm).imp Eq.symm Eq.symm
      · exact hleft.registers u hu (mt hab.mem_units.mp (not_or.mpr ⟨hmem, hnot⟩)) w (hab.mem_units.mpr (.inr hw)) heq
    · refine hleft.ends (hab.ends_host hu hnone) hnext ?_
      rw [hab.kind_output_host ha.wired hu hnone, hdiscard]
    · by_cases hmem : u ∈ a.units
      · exact hregisters w hw u hmem heq
      by_cases hmem' : u ∈ b.units
      · exact hfits.registers u hmem' hmem w hw heq
      · exact hleft.registers u hu (mt hab.mem_units.mp (not_or.mpr ⟨hmem, hmem'⟩)) w (hab.mem_units.mpr (.inl hw)) heq
  · intro hall
    refine ⟨fun {u ends next} hends hnext hdiscard => ?_, fun u hu hnot w hw heq => ?_,
      hagree.mpr ⟨hall.opgroups, hall.last.opgroups⟩⟩
    · rcases hab.output_cases hends with ⟨host, hhost, houtput⟩ | ⟨hnone, hu⟩
      · rw [houtput, hab.kind_output_guest hb.wired hhost] at hdiscard
        exact hall.last.ends hhost hnext hdiscard
      · rw [hab.kind_output_host ha.wired hu hnone] at hdiscard
        exact hall.ends hu hnone hnext hdiscard
    · rw [hab.mem_units, not_or] at hnot
      rcases hab.mem_units.mp hw with hw | hw
      · exact hall.registers u hu w hw heq
      · exact hall.last.registers u hu hnot.2 w hw heq

include hb hc hregisters in
/-- **Put together from the right**, the last two circuits are checked against the first. -/
theorem fits_right_iff (hfits : b.Fits c) (hbc : IsAppended μ b c bc) : a.Fits bc ↔ FitsAll a b c := by
  have hagree := hfits.opgroups.unionLeft_iff (o := a.opgroups)
  rw [← hbc.opgroups] at hagree
  constructor
  · intro hright
    obtain ⟨hnames, hnames'⟩ := hagree.mp hright.opgroups.symm
    refine ⟨⟨fun {u host next} hu hnext hdiscard => ?_, fun u hu hnot w hw heq => ?_, hnames.symm⟩, hfits,
      fun {u host next} hu hnone hnext hdiscard => ?_, fun u hu w hw heq => ?_, hnames'.symm⟩
    · obtain ⟨ends, hends, hinput⟩ := hbc.input_host hnext
      rw [← hbc.kind_input_host hb.wired hnext, ← hinput]
      exact hright.ends hu hends hdiscard
    · exact hright.registers u (hbc.mem_units.mpr (.inl hu)) hnot w hw heq
    · rw [← hbc.kind_input_guest hc.wired hnone hnext]
      exact hright.ends hu (hbc.ends_guest hnone hnext) hdiscard
    · exact hright.agree hregisters (hbc.mem_units.mpr (.inr hu)) hw heq
  · intro hall
    refine ⟨fun {u host ends} hu hends hdiscard => ?_, fun u hu hnot w hw heq => ?_,
      (hagree.mpr ⟨hall.first.opgroups.symm, hall.opgroups.symm⟩).symm⟩
    · rcases hbc.input_cases hends with ⟨_, hhost', hinput⟩ | ⟨hnone, next, hnext, rfl⟩
      · rw [hinput, hbc.kind_input_host hb.wired hhost']
        exact hall.first.ends hu hhost' hdiscard
      · exact (hbc.kind_input_guest hc.wired hnone hnext).trans (hall.ends hu hnone hnext hdiscard)
    · rcases hbc.mem_units.mp hu with hu | hu
      · exact hall.first.registers u hu hnot w hw heq
      · exact hall.registers u hu w hw heq

/-! ## Associativity -/

include ha hb hc hregisters in
/-- **Three circuits can be put together from the left just if they can from the right**: if they all fit. -/
theorem sequential_left_iff : (∃ l, (a.sequential b >>= fun ab => ab.sequential c) = .ok l) ↔ FitsAll a b c := by
  constructor
  · rintro ⟨l, hl⟩
    obtain ⟨ab, hab, hl⟩ := bind_ok_iff.mp hl
    obtain ⟨hfits, κ, hhead⟩ := sequential_eq_ok ha hb hab
    exact (fits_left_iff ha hb hregisters hfits hhead).mp (sequential_eq_ok hhead.wellFormed hc hl).1
  · intro hall
    obtain ⟨ab, κ, hab, hhead⟩ := sequential_of_fits ha hb hall.first
    obtain ⟨l, _, hl, _⟩ := sequential_of_fits hhead.wellFormed hc ((fits_left_iff ha hb hregisters hall.first hhead).mpr hall)
    exact ⟨l, except_bind_ok hab hl⟩

include ha hb hc hregisters in
lemma sequential_right_iff : (∃ r, (b.sequential c >>= fun bc => a.sequential bc) = .ok r) ↔ FitsAll a b c := by
  constructor
  · rintro ⟨r, hr⟩
    obtain ⟨bc, hbc, hr⟩ := bind_ok_iff.mp hr
    obtain ⟨hfits, μ, htail⟩ := sequential_eq_ok hb hc hbc
    exact (fits_right_iff hb hc hregisters hfits htail).mp (sequential_eq_ok ha htail.wellFormed hr).1
  · intro hall
    obtain ⟨bc, μ, hbc, htail⟩ := sequential_of_fits hb hc hall.last
    obtain ⟨r, _, hr, _⟩ := sequential_of_fits ha htail.wellFormed ((fits_right_iff hb hc hregisters hall.last htail).mpr hall)
    exact ⟨r, except_bind_ok hbc hr⟩

/-- **Putting circuits one after another is associative.** If the units of each register agree in the first circuit, the
    three can be put together from the left just if they can from the right, and the two results are isomorphic. -/
theorem sequential_assoc (ha : a.WellFormed) (hb : b.WellFormed) (hc : c.WellFormed) (hregisters : a.RegistersAgree) :
    ((∃ l, (a.sequential b >>= fun ab => ab.sequential c) = .ok l) ↔
      ∃ r, (b.sequential c >>= fun bc => a.sequential bc) = .ok r) ∧
    ∀ l r, (a.sequential b >>= fun ab => ab.sequential c) = .ok l →
      (b.sequential c >>= fun bc => a.sequential bc) = .ok r → Isomorphic l r := by
  refine ⟨(sequential_left_iff ha hb hc hregisters).trans (sequential_right_iff ha hb hc hregisters).symm, fun l r hl hr => ?_⟩
  obtain ⟨ab, hab, hl⟩ := bind_ok_iff.mp hl
  obtain ⟨bc, hbc, hr⟩ := bind_ok_iff.mp hr
  obtain ⟨_, κ, hhead⟩ := sequential_eq_ok ha hb hab
  obtain ⟨_, κ', hleft⟩ := sequential_eq_ok hhead.wellFormed hc hl
  obtain ⟨_, μ, htail⟩ := sequential_eq_ok hb hc hbc
  obtain ⟨_, μ', hright⟩ := sequential_eq_ok ha htail.wellFormed hr
  have hbrackets : Brackets a b c ab bc l r κ κ' μ μ' := ⟨ha, hb, hc, hhead, hleft, htail, hright⟩
  refine ⟨⟨_, hbrackets.corresponds⟩, ?_⟩
  rw [hright.opgroups, htail.opgroups, hleft.opgroups, hhead.opgroups, SortedMap.unionLeft_assoc]

/-- A qubit that the first circuit discards, the middle one does not have and the last one creates anew. -/
theorem sequential_assoc_discarded : ∃ a b c l r, (ofUnits 1 1).edited (do
      let _ ← addOp .measure [.qubit 0, .bit 0] (some "read")
      discardQubit (.qubit 0)) = .ok a ∧
    (ofUnits 0 1).edited (do
      addUnit (.qubit 1)
      discard (addOp (.conditional .reset 1 1) [.bit 0, .qubit 1] none)) = .ok b ∧
    (ofUnits 2 1).edited (do
      createQubit (.qubit 0)
      let _ ← addOp (.gate .cx) [.qubit 1, .qubit 0] none
      discard (addOp .measure [.qubit 0, .bit 0] (some "read"))) = .ok c ∧
    a.RegistersAgree ∧ (a.sequential b >>= fun ab => ab.sequential c) = .ok l ∧
    (b.sequential c >>= fun bc => a.sequential bc) = .ok r ∧ Isomorphic l r := by
  simp only [exists_and_left]
  refine exists_run fun a ha => exists_run fun b hb =>
    exists_run fun c hc => ?_
  have hregisters : a.RegistersAgree := of_run ha (by decide +kernel)
  have hwell₁ := wellFormed_edited ha
  have hwell₂ := wellFormed_edited hb
  have hwell₃ := wellFormed_edited hc
  obtain ⟨hiff, hiso⟩ := sequential_assoc hwell₁ hwell₂ hwell₃ hregisters
  refine ⟨hregisters, exists_and_of (of_run ha (of_run hb (of_run hc (by decide +kernel)))) fun l hl => ?_⟩
  obtain ⟨r, hr⟩ := hiff.mp ⟨l, hl⟩
  exact ⟨r, hr, hiso l r hl hr⟩

end Circuit

end Wireloom
