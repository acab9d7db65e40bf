import Wireloom.Proofs.Seams

/-!
# `Circuit.Follows` — wires, reads and commands of circuits in a row

If a circuit follows another, the wire of a common unit runs as in the first, over a reset if the second creates the
unit, and on as in the second (`Chained.continued`). The second circuit reads the last value of the first where it read
what came in.
-/

namespace Wireloom

def Command.rename (ρ : Renaming) (cmd : Command) : Command := { cmd with args := cmd.args.map ρ.apply }

namespace Circuit

open Wireloom.Graph List SortedMap Option

variable {c c' guest d : Circuit} {unit unitG unitD : Pin → UnitId} {ι : Vertex → Vertex} {ρ : Renaming} {u : UnitId}
  {host next : Ends} {v w : Vertex} {p q z : Pin} {l m : Link} {own later : List Pin} {cmd : Command}

/-! ## Wires in a row -/

/-- The pin of the reset of a qubit that the guest creates. -/
def resetAt (guest : Circuit) (ι : Vertex → Vertex) (next : Ends) : List Pin :=
  if (guest.graph.kind? next.input).any NodeKind.isCreate then [⟨ι next.input, 0⟩] else []

/-- **The wire of a unit of both circuits.** It passes its `own` pins in the host, a reset if the guest creates the unit,
    and copies of what it passes `later` in the guest. It starts as in the host and ends as in the guest. What is read in
    the guest where the wire comes in is now read from the last pin that the wire passes in the host. -/
structure Continued (ι : Vertex → Vertex) (c guest d : Circuit) (u : UnitId) (host next : Ends) (own later : List Pin) :
    Prop where
  passed : c.WirePins u own
  passed_later : guest.WirePins u later
  starts : d.endAt? .first u = c.endAt? .first u
  stops : d.endAt? .last u = guest.endAt? .last u
  passes : d.WirePins u (own ++ guest.resetAt ι next ++ later.map (Pin.map ι))
  steps : d.stepsAt (own ++ guest.resetAt ι next ++ later.map (Pin.map ι)) =
    c.stepsAt own ++ (guest.resetAt ι next).map (fun _ => (some (.op .reset), 0)) ++ guest.stepsAt later
  reads : ∀ {m}, guest.graph.HasLink m → m.kind = .boolean → m.source = ⟨next.input, 0⟩ →
    d.graph.HasLink ⟨own.getLastD ⟨host.input, 0⟩, m.target.map ι, .boolean⟩

/-- **The wire of a unit of one circuit only.** -/
structure Kept (ι : Vertex → Vertex) (c d : Circuit) (u : UnitId) (own : List Pin) : Prop where
  passed : c.WirePins u own
  ends : ∀ s, d.endAt? s u = c.endAt? s u
  passes : d.WirePins u (own.map (Pin.map ι))
  steps : d.stepsAt (own.map (Pin.map ι)) = c.stepsAt own

lemma Framed.resetAt_eq (h : guest.Framed) (hnext : guest.boundary.get? u = some next) :
    (guest.graph.kind? next.input = some .create ∧ guest.resetAt ι next = [⟨ι next.input, 0⟩]) ∨
      (guest.graph.kind? next.input ≠ some .create ∧ guest.resetAt ι next = []) := by
  obtain ⟨k, hk, _⟩ := h.starts hnext
  unfold resetAt
  rw [hk]
  cases k with
  | create => exact .inl ⟨rfl, rfl⟩
  | _ => exact .inr ⟨by simp, rfl⟩

lemma WirePins.not_isOutput (hown : c.WirePins u own) (h : c.Wired unit) (hp : p ∈ own) : ¬ c.IsOutput p.vertex := by
  obtain ⟨_, _, hruns⟩ := hown
  obtain ⟨_, y, k, _, hl⟩ := hruns.between hp
  exact h.complete.source_open hl

namespace Chained

variable (hch : Chained ι c guest d) (hc : c.Wired unit) (hguest : guest.Wired unitG) (hd : d.Wired unitD)

include hch in
lemma runs_host (hruns : c.graph.net.Runs p own z) (hown : ∀ q ∈ own, ¬ c.WasEnd guest q.vertex) : d.graph.net.Runs p own z :=
  hruns.mono fun _ hy ⟨k, hk, hl⟩ => ⟨k, hk, hch.host_link hl (hown _ hy)⟩

include hch hc hguest in
lemma runs_leads (hruns : guest.graph.net.Runs p later z) (hq : Leads ι c guest p q) :
    ∃ z', Leads ι c guest z z' ∧ d.graph.net.Runs q (later.map (Pin.map ι)) z' := by
  -- only the first pin can stand for one of the host; the others are not at the start of a wire
  induction hruns with
  | nil => exact ⟨q, hq, .nil⟩
  | @snoc later x z _ hstep ih =>
    obtain ⟨y, hy, hruns⟩ := ih
    obtain ⟨k, hk, hl⟩ := hstep
    obtain ⟨z', hz'⟩ := exists_leads hc ι guest z
    refine ⟨z', hz', ?_⟩
    have hmap : z' = z.map ι := hz'.eq_map (hguest.target_open hl)
    rw [map_append, hmap]
    exact hruns.snoc ⟨k, hk, hch.link_of_leads hl hy⟩

variable (hown : c.WirePins u own) (hlater : guest.WirePins u later)
  (hhost : c.boundary.get? u = some host) (hnext : guest.boundary.get? u = some next)

include hch hc hguest hlater hnext in
lemma runs_guest (hq : Leads ι c guest ⟨next.input, 0⟩ q) :
    d.graph.net.Runs q (later.map (Pin.map ι) ++ [⟨ι next.output, 0⟩]) ⟨ι next.output, 0⟩ := by
  obtain ⟨_, hnext', hruns⟩ := hlater
  cases mem_unique hnext hnext'
  obtain ⟨_, hz', hruns'⟩ := hch.runs_leads hc hguest hruns hq
  have hout : ¬ guest.IsInput next.output := fun hin => hguest.not_isOutput hin ⟨u, next, hnext, rfl⟩
  rw [hz'.eq_map hout, map_append] at hruns'
  exact hruns'

include hch hc hown hhost in
lemma runs_own : ∃ l, c.graph.HasLink l ∧ l.target = ⟨host.output, 0⟩ ∧ l.kind.isLinear ∧
      l.source = own.getLastD ⟨host.input, 0⟩ ∧ d.graph.net.Runs ⟨host.input, 0⟩ own l.source := by
  have hnot : ∀ p ∈ own, ¬ c.WasEnd guest p.vertex := fun p hp hend => hown.not_isOutput hc hp hend.isOutput
  obtain ⟨_, hhost', hruns⟩ := hown
  cases mem_unique hhost hhost'
  obtain ⟨z, hruns, k, hk, hl⟩ := hruns.concat_inv
  exact ⟨⟨z, ⟨host.output, 0⟩, k⟩, hl, rfl, hk, hruns.eq_getLastD, hch.runs_host hruns hnot⟩

include hch hc hguest hown hlater hhost hnext in
lemma passes : d.WirePins u (own ++ guest.resetAt ι next ++ later.map (Pin.map ι)) := by
  refine ⟨⟨host.input, ι next.output⟩, by rw [hch.boundary, hhost, hnext]; rfl, ?_⟩
  obtain ⟨l, hl, ht, hlin, _, hfirst⟩ := hch.runs_own hc hown hhost
  have hlo : l.target.vertex = host.output := by rw [ht]
  rw [append_assoc, append_assoc]
  refine hfirst.append ?_
  rcases hguest.resetAt_eq hnext with ⟨hcreate, hreset⟩ | ⟨hcreate, hreset⟩
  · -- one more step, from the last pin of the host to the reset
    rw [hreset]
    exact .cons ⟨l.kind, hlin, hch.reset_link hhost hnext hcreate hl hlo⟩
      (hch.runs_guest hc hguest hlater hnext (.copied fun hspliced => hspliced.2 hcreate))
  · rw [hreset]
    exact hch.runs_guest hc hguest hlater hnext (.joined hhost hnext hcreate rfl hl hlo)

/-! ## What the wires pass -/

include hch hc hown in
lemma stepsAt_host : d.stepsAt own = c.stepsAt own := by
  refine stepsAt_congr fun p hp => ?_
  obtain ⟨o, ho⟩ := hown.op_of_mem hc hp
  rw [ho, hch.kind_host ho fun hend => hown.not_isOutput hc hp hend.isOutput]

include hch hguest hlater in
lemma stepsAt_guest : d.stepsAt (later.map (Pin.map ι)) = guest.stepsAt later := by
  refine stepsAt_map fun p hp => ?_
  obtain ⟨o, ho⟩ := hlater.op_of_mem hguest hp
  rw [ho, hch.kind_guest ho fun hstart => hguest.not_isInput_of_op ho hstart.isInput]

include hch hguest hhost hnext in
lemma stepsAt_reset : d.stepsAt (guest.resetAt ι next) = (guest.resetAt ι next).map fun _ => (some (.op .reset), 0) := by
  rcases hguest.resetAt_eq hnext with ⟨hcreate, hreset⟩ | ⟨_, hreset⟩
  · rw [hreset]
    show [(d.graph.kind? (ι next.input), 0)] = _
    rw [hch.kind_reset hhost hnext hcreate]
    rfl
  · rw [hreset]
    rfl

include hch hc hhost in
lemma endAt?_first : d.endAt? .first u = c.endAt? .first u := by
  obtain ⟨ends, hends, hinput⟩ := hch.input_host hhost
  rw [endAt?_of_ends .first hends, endAt?_of_ends .first hhost]
  show d.graph.kind? ends.input = c.graph.kind? host.input
  rw [hinput, hch.kind_input_host hc hhost]

include hch hguest hnext in
lemma endAt?_last : d.endAt? .last u = guest.endAt? .last u := by
  obtain ⟨ends, hends, houtput⟩ := hch.output_guest hnext
  rw [endAt?_of_ends .last hends, endAt?_of_ends .last hnext]
  show d.graph.kind? ends.output = guest.graph.kind? next.output
  rw [houtput, hch.kind_output_guest hguest hnext]

include hch hc hguest hhost hnext in
lemma continued : ∃ own later, Continued ι c guest d u host next own later := by
  obtain ⟨own, hown⟩ := hc.exists_wirePins hhost
  obtain ⟨later, hlater⟩ := hguest.exists_wirePins hnext
  refine ⟨own, later, hown, hlater, hch.endAt?_first hc hhost, hch.endAt?_last hguest hnext,
    hch.passes hc hguest hown hlater hhost hnext, ?_, fun {m} hm hbool hsource => ?_⟩
  · rw [stepsAt_append, stepsAt_append, hch.stepsAt_host hc hown, hch.stepsAt_guest hguest hlater,
      hch.stepsAt_reset hguest hhost hnext]
  · obtain ⟨l, hl, ht, _, hlast, _⟩ := hch.runs_own hc hown hhost
    have hcreate : guest.graph.kind? next.input ≠ some .create := by
      -- a created unit is a qubit, and only bits are read
      intro hcreate
      have hwire := hguest.threaded.source_wire hm
      rw [hsource, wireAt_of_kind? hcreate, hbool] at hwire
      cases hwire
    have hread := hch.joined_link hhost hnext hcreate hl (by rw [ht]) hm (by rw [hsource])
    rw [hlast, hbool] at hread
    exact hread

include hch hc hhost in
lemma kept_host (hnext : guest.boundary.get? u = none) : ∃ own, Kept id c d u own := by
  obtain ⟨own, hown⟩ := hc.exists_wirePins hhost
  have hends := hch.ends_host hhost hnext
  obtain ⟨l, hl, ht, hlin, _, hruns⟩ := hch.runs_own hc hown hhost
  have hend := not_wasEnd_of_none hc hhost hnext
  have hmap : own.map (Pin.map id) = own := map_id' own
  refine ⟨own, hown, fun s => ?_, ⟨host, hends, ?_⟩, ?_⟩
  · cases s with
    | first => exact hch.endAt?_first hc hhost
    | last =>
      rw [endAt?_of_ends .last hends, endAt?_of_ends .last hhost]
      exact hch.kind_output_host hc hhost hnext
  · rw [hmap]
    exact hruns.snoc ⟨l.kind, hlin, ht ▸ hch.host_link hl (ht ▸ hend)⟩
  · rw [hmap]
    exact hch.stepsAt_host hc hown

include hch hc hguest in
lemma kept_guest (hhost : c.boundary.get? u = none) (hnext : guest.boundary.get? u = some next) :
    ∃ later, Kept ι guest d u later := by
  obtain ⟨later, hlater⟩ := hguest.exists_wirePins hnext
  have hends := hch.ends_guest hhost hnext
  have hstart := not_wasStart_of_none hguest hhost hnext
  refine ⟨later, hlater, fun s => ?_, ⟨next.map ι, hends, ?_⟩, hch.stepsAt_guest hguest hlater⟩
  · cases s with
    | first =>
      rw [endAt?_of_ends .first hends, endAt?_of_ends .first hnext]
      exact hch.kind_input_guest hguest hhost hnext
    | last => exact hch.endAt?_last hguest hnext
  · exact hch.runs_guest hc hguest hlater hnext (.copied fun hspliced => hstart hspliced.1)

end Chained

/-! ## Commands in a row -/

/-- The reset of a unit of the guest, if the guest creates it and the host has it. -/
def resetOf (c guest : Circuit) (ι : Vertex → Vertex) (x : UnitId × Ends) : Option Command :=
  (guest.graph.vertices.get? x.2.input).bind fun n =>
    if c.hasUnit x.1 && n.kind.isCreate then some ⟨.reset, [x.1], n.opgroup, ι x.2.input⟩ else none

/-- The resets where the guest's wires go on from the host's. -/
def joinResets (c guest : Circuit) (ι : Vertex → Vertex) : List Command :=
  guest.boundary.entries.filterMap (c.resetOf guest ι)

/-- **The commands of two circuits in a row**: those of the host, and then the `rest`, which are those of the guest and
    the resets. What comes before a vertex in the guest comes before it in the rest. -/
structure Sequel (ι : Vertex → Vertex) (c guest d : Circuit) (rest : List Command) : Prop where
  commands : d.commands = c.commands ++ rest
  contents : rest.Perm (guest.commands.map (Command.move id ι) ++ c.joinResets guest ι)
  ordered : ∀ xs cmd ys, rest = xs ++ cmd :: ys → ∀ v w, guest.graph.net.Before v w → cmd.vertex = ι w →
    d.holdsOp (ι v) = true → ∃ first ∈ xs, first.vertex = ι v

lemma resetOf_eq_some : c.resetOf guest ι (u, next) = some cmd ↔ ∃ host n, c.boundary.get? u = some host ∧
    guest.graph.vertices.get? next.input = some n ∧ n.kind = .create ∧ cmd = ⟨.reset, [u], n.opgroup, ι next.input⟩ := by
  constructor
  · intro hcmd
    obtain ⟨n, hn, hcmd⟩ := bind_eq_some_iff.mp hcmd
    split at hcmd
    · next hboth =>
      rw [Bool.and_eq_true] at hboth
      obtain ⟨host, hhost⟩ := isSome_iff_exists.mp hboth.1
      refine ⟨host, n, hhost, hn, ?_, (some.inj hcmd).symm⟩
      cases hkind : n.kind with
      | create => rfl
      | _ => rw [hkind] at hboth; cases hboth.2
    · cases hcmd
  · rintro ⟨host, n, hhost, hn, hkind, rfl⟩
    refine bind_eq_some_iff.mpr ⟨n, hn, if_pos ?_⟩
    rw [hkind, Bool.and_eq_true]
    exact ⟨isSome_iff_exists.mpr ⟨host, hhost⟩, rfl⟩

lemma mem_joinResets : cmd ∈ c.joinResets guest ι ↔ ∃ u host next n, c.boundary.get? u = some host ∧
    guest.boundary.get? u = some next ∧ guest.graph.vertices.get? next.input = some n ∧ n.kind = .create ∧
      cmd = ⟨.reset, [u], n.opgroup, ι next.input⟩ := by
  unfold joinResets
  rw [mem_filterMap]
  constructor
  · rintro ⟨⟨u, next⟩, hmem, hcmd⟩
    obtain ⟨host, n, hhost, hn, hkind, rfl⟩ := resetOf_eq_some.mp hcmd
    exact ⟨u, host, next, n, hhost, get?_iff_mem.mpr hmem, hn, hkind, rfl⟩
  · rintro ⟨u, host, next, n, hhost, hnext, hn, hkind, rfl⟩
    exact ⟨(u, next), get?_iff_mem.mp hnext, resetOf_eq_some.mpr ⟨host, n, hhost, hn, hkind, rfl⟩⟩

namespace Chained

variable (hch : Chained ι c guest d) (hc : c.Wired unit) (hguest : guest.Wired unitG) (hd : d.Wired unitD)

/-! ## The walk -/

include hch hc hd in
lemma before_host (hv : c.graph.Live v) (hw : c.graph.Live w) (hv' : d.graph.Live v) (hw' : d.graph.Live w) :
    c.graph.net.Before v w ↔ d.graph.net.Before v w := by
  have hvend := hch.not_wasEnd hv hv'
  have hwend := hch.not_wasEnd hw hw'
  constructor
  · intro hvw
    cases hvw with
    | link hl => exact .link (hch.host_link hl hwend)
    | hazard ha hb hak hbl hs => exact .hazard (hch.host_link ha hvend) (hch.host_link hb hwend) hak hbl hs
  · intro hvw
    cases hvw with
    | link hl => exact .link (hch.link_into_host hc hd hl hw hwend)
    | hazard ha hb hak hbl hs =>
      exact .hazard (hch.link_into_host hc hd ha hv hvend) (hch.link_into_host hc hd hb hw hwend) hak hbl hs

include hch hc hguest hd in
lemma not_before_host (hv : guest.graph.Live v) (hw : c.graph.Live w) (hw' : d.graph.Live w) :
    ¬ d.graph.net.Before (ι v) w := by
  have hend := hch.not_wasEnd hw hw'
  intro hvw
  generalize hx : ι v = x at hvw
  cases hvw with
  | @link l hl => exact hch.fresh hv (hx ▸ hc.valid.source_live (hch.link_into_host hc hd hl hw hend))
  | @hazard a b ha hb hak hbl hs =>
    have hb' := hch.link_into_host hc hd hb hw hend
    generalize ha' : a = a' at ha
    cases (hch.link_iff hc hguest hd).mp ha with
    | host ha'' _ => exact hch.fresh hv (hx ▸ ha' ▸ hc.valid.target_live ha'')
    | @guest l q hl hq =>
      subst ha'
      cases hq with
      | copied _ =>
        have hv : ι l.source.vertex = b.source.vertex := congrArg Pin.vertex hs
        exact hch.fresh (hguest.valid.source_live hl) (hv ▸ hc.valid.source_live hb')
      | @joined u host next last hhost hnext _ _ hlast ht =>
        -- the wire leads on from the pin to the end of the host's wire and nowhere else
        have hkind := hc.kind_of_output hhost hlast ht
        have hsame : last = b := hc.threaded.out_unique hlast hb' (by rw [hkind]; exact WireKind.isLinear_wire _) hbl hs
        exact hend ⟨u, host, next, hhost, hnext, hsame ▸ ht.symm⟩
    | @reset u host next last hhost _ _ hlast ht =>
      -- a link into a reset carries a qubit and reads nothing
      subst ha'
      have hlin := WireKind.isLinear_wire u.kind
      rw [← hc.kind_of_output hhost hlast ht, show last.kind = _ from hak] at hlin
      cases hlin

include hch hc hguest hd in
/-- **The walk lists what is left of the host as before, and then what is left of the guest.** -/
theorem walk_eq (hseq : c.Sequenced) : ∃ later,
    d.graph.walk = c.graph.walk.filter (fun w => d.graph.vertices.contains w) ++ later ∧
      ∀ w, w ∈ later ↔ d.graph.Live w ∧ ∃ v, guest.graph.Live v ∧ ι v = w := by
  have hbefore := fun {x w} => mem_pairs_iff (v := x) (w := w) hc.valid hc.threaded
  have hbefore' := fun {x w} => mem_pairs_iff (v := x) (w := w) hd.valid hd.threaded
  have hhost : ∀ {w}, w ∈ (c.graph.bySequence.map Prod.fst).filter (fun w => d.graph.vertices.contains w) →
      c.graph.Live w ∧ d.graph.Live w := by
    intro w hw
    obtain ⟨hmem, hlive⟩ := mem_filter.mp hw
    exact ⟨(mem_map_bySequence hc.valid).mp hmem, hlive⟩
  have hcopy : ∀ {w}, w ∈ ((guest.graph.bySequence.map Prod.fst).map ι).filter (fun w => d.graph.vertices.contains w) ↔
      d.graph.Live w ∧ ∃ v, guest.graph.Live v ∧ ι v = w := by
    intro w
    rw [mem_filter, List.mem_map, and_comm]
    simp only [mem_map_bySequence hguest.valid]
    rfl
  obtain ⟨rank, _, _, hrank⟩ := hd.exists_rank
  have hranked : ∀ x w, (x, w) ∈ d.graph.linkPairs ++ d.graph.hazards → rank x < rank w :=
    fun x w hxw => hrank x w (hbefore'.mp hxw)
  unfold walk walkBy
  rw [hch.made hseq, filter_append, walkFor_append hranked fun x hx w hw hxw => ?_,
    filter_walkFor (fun x w hxw hw => ?_) le_rfl le_rfl]
  · refine ⟨_, congrArg (· ++ _) (walkFor_congr fun x hx w hw => ?_), fun w => ?_⟩
    · rw [hbefore, hbefore']
      exact (hch.before_host hc hd (hhost hx).1 (hhost hw).1 (hhost hx).2 (hhost hw).2).symm
    · rw [(walkFor_perm hranked _).mem_iff, hcopy]
  · -- what comes before something in the host is no end
    have hxw := hbefore.mp hxw
    exact hch.live_host (live_of_before hc.threaded hxw).1 fun hend => hc.not_isOutput_of_before hxw hend.isOutput
  · obtain ⟨_, v, hv, rfl⟩ := hcopy.mp hx
    exact hch.not_before_host hc hguest hd hv (hhost hw).1 (hhost hw).2 (hbefore'.mp hxw)

/-! ## The commands -/

include hch hc hd in
lemma commandAt_host (hv : c.graph.Live v) (hlive : d.graph.Live v) : d.commandAt unitD v = c.commandAt unit v := by
  have hend := hch.not_wasEnd hv hlive
  obtain ⟨n, hn⟩ := live_iff.mp hv
  refine commandAt_eq_of_links hc hd ((hch.host_node hn hend).trans hn.symm) fun m hm ht => ?_
  have hm' := hch.link_into_host hc hd hm (ht ▸ hv) (ht ▸ hend)
  exact ⟨m, hm', rfl, (hch.unit_host hc hd hm').symm⟩

include hch hc hguest hd in
lemma commandAt_guest (hcmd : guest.commandAt unitG v = some cmd) : d.commandAt unitD (ι v) = some (cmd.move id ι) := by
  obtain ⟨hvertex, hargs, k, hn⟩ := of_commandAt hcmd
  have hkind : guest.graph.kind? v = some (.op cmd.op) := kind?_of_get? hn
  have hstart : ¬ c.WasStart guest v := fun hstart => hguest.not_isInput_of_op hkind hstart.isInput
  obtain ⟨⟨_, _, _⟩, hn', rfl, hsame, _⟩ := hch.guest_node hn fun hspliced => hstart hspliced.1
  cases hsame hstart
  have hv := live_of_kind? hkind
  have hunits := units_eq_of_links hguest hd hn hn' (hguest.not_isInput_of_op hkind)
    (hd.not_isInput_of_op (hch.kind_guest hkind hstart)) rfl fun m hm ht => by
      cases (hch.link_iff hc hguest hd).mp hm with
      | host hl _ => exact absurd (ht ▸ hc.valid.target_live hl) (hch.fresh hv)
      | @guest l q hl hq =>
        exact ⟨l, hl, hch.injective (hguest.valid.target_live hl) hv ht, rfl, (hch.unit_leads hc hguest hd hl hq).symm⟩
      | reset _ hnext hcreate _ _ =>
        rw [hch.injective (live_of_kind? hcreate) hv ht, hkind] at hcreate
        cases hcreate
  unfold commandAt
  rw [hn']
  show some (⟨cmd.op, _, cmd.opgroup, ι v⟩ : Command) = some ⟨cmd.op, cmd.args, cmd.opgroup, ι cmd.vertex⟩
  rw [hunits, hargs, hvertex]

include hch hc hguest hd in
lemma commandAt_reset (hcmd : cmd ∈ c.joinResets guest ι) : d.commandAt unitD cmd.vertex = some cmd := by
  obtain ⟨u, host, next, n, hhost, hnext, hn, hcreate, rfl⟩ := mem_joinResets.mp hcmd
  have hk : guest.graph.kind? next.input = some .create := by rw [kind?, hn, map_some, hcreate]
  have hreset := hch.kind_reset hhost hnext hk
  obtain ⟨⟨_, _, _⟩, hn', rfl, _, hsame⟩ := hch.guest_node hn fun hspliced => hspliced.2 hk
  cases hsame ⟨u, host, next, hhost, hnext, rfl⟩
  have hunits : (d.graph.inLinks (ι next.input)).map (fun p => unitD p.2.source) = [u] := by
    refine hd.units_eq hn' (hd.not_isInput_of_op hreset) rfl fun m hm ht => ?_
    cases (hch.link_iff hc hguest hd).mp hm with
    | host hl _ => exact absurd (ht ▸ hc.valid.target_live hl) (hch.fresh (live_of_kind? hk))
    | @guest l q hl _ =>
      -- nothing led to the start in the guest
      refine absurd ⟨u, next, hnext, ?_⟩ (hguest.target_open hl)
      exact (hch.injective (hguest.valid.target_live hl) (live_of_kind? hk) ht).symm
    | @reset u' _ _ l hhost' hnext' hcreate' hl hlo =>
      have hsame := hch.injective (live_of_kind? hcreate') (live_of_kind? hk) ht
      have huu : u' = u := by rw [← hguest.unit_input hnext, ← hsame, hguest.unit_input hnext']
      show some u = some (unitD l.source)
      rw [hch.unit_host hc hd hl, hc.unit_of_onWire (hc.onWire_last hhost' hl hlo), huu]
  unfold commandAt
  dsimp only
  rw [hn']
  exact congrArg (fun args => some (⟨.reset, args, n.opgroup, ι next.input⟩ : Command)) hunits

include hch hc hguest hd in
lemma commandAt_copy (hv : guest.graph.Live v) (hcmd : d.commandAt unitD (ι v) = some cmd) :
    (∃ cmd0, guest.commandAt unitG v = some cmd0 ∧ cmd0.move id ι = cmd) ∨ cmd ∈ c.joinResets guest ι := by
  obtain ⟨_, _, k, hn'⟩ := of_commandAt hcmd
  have hspliced := hch.not_spliced hv (live_of_get? hn')
  obtain ⟨n, hn⟩ := live_iff.mp hv
  by_cases hstart : c.WasStart guest v
  · right
    obtain ⟨u, host, next, hhost, hnext, rfl⟩ := hstart
    have hk := not_not.mp fun hk => hspliced ⟨⟨u, host, next, hhost, hnext, rfl⟩, hk⟩
    rw [kind?, hn] at hk
    have hmem : (⟨.reset, [u], n.opgroup, ι next.input⟩ : Command) ∈ c.joinResets guest ι :=
      mem_joinResets.mpr ⟨u, host, next, n, hhost, hnext, hn, some.inj hk, rfl⟩
    rwa [mem_unique hcmd (hch.commandAt_reset hc hguest hd hmem)]
  · left
    obtain ⟨_, hn'', _, hkind, _⟩ := hch.guest_node hn hspliced
    cases mem_unique hn'' hn'
    obtain ⟨cmd0, hcmd0⟩ := exists_commandAt unitG ((kind?_of_get? hn).trans (congrArg some (hkind hstart).symm))
    refine ⟨cmd0, hcmd0, ?_⟩
    exact mem_unique (hch.commandAt_guest hc hguest hd hcmd0) hcmd

include hch hc in
lemma before_guest (hvw : guest.graph.net.Before v w) (hv : guest.graph.Live v) (hlive : d.graph.Live (ι v)) :
    d.graph.net.Before (ι v) (ι w) := by
  have hspliced := hch.not_spliced hv hlive
  cases hvw with
  | @link l hl => exact .link (l := l.map ι) (hch.guest_link hl hspliced)
  | @hazard a b ha hb hak hbl hs =>
    -- the read and the write come from one pin, so from one pin they still come
    obtain ⟨q, hq⟩ := exists_leads hc ι guest a.source
    exact .hazard (a := ⟨q, a.target.map ι, a.kind⟩) (b := ⟨q, b.target.map ι, b.kind⟩)
      (hch.link_of_leads ha hq) (hch.link_of_leads hb (hs ▸ hq)) hak hbl rfl

include hch hguest in
lemma nodup_contents : (guest.commands.map (Command.move id ι) ++ c.joinResets guest ι).Nodup := by
  have hlists := hguest.lists_commands
  have hnode : ∀ {cmd}, cmd ∈ guest.commands → guest.graph.kind? cmd.vertex = some (.op cmd.op) := by
    intro cmd hcmd
    obtain ⟨k, hn⟩ := hlists.content cmd hcmd
    rw [kind?, hn]
    rfl
  refine nodup_append.mpr ⟨?_, ?_, ?_⟩
  · refine hlists.nodup.of_map.map_on fun cmd hcmd cmd' hcmd' heq => ?_
    refine inj_on_of_nodup_map hlists.nodup hcmd hcmd' ?_
    exact hch.injective (live_of_kind? (hnode hcmd)) (live_of_kind? (hnode hcmd')) (congrArg Command.vertex heq)
  · -- the units of the resets differ
    refine pairwise_filterMap.mpr ((pairwise_map.mp (nodup_keys guest.boundary)).imp ?_)
    rintro ⟨u, next⟩ ⟨_, _⟩ hne cmd hcmd cmd' hcmd' rfl
    obtain ⟨_, _, _, _, _, rfl⟩ := resetOf_eq_some.mp hcmd
    obtain ⟨_, _, _, _, _, heq⟩ := resetOf_eq_some.mp hcmd'
    exact hne (singleton_injective (congrArg Command.args heq))
  · intro cmd hcmd cmd' hcmd' heq
    obtain ⟨cmd0, hcmd0, rfl⟩ := mem_map.mp hcmd
    obtain ⟨u, _, next, n, _, _, hn, hcreate, rfl⟩ := mem_joinResets.mp hcmd'
    have hkind := hnode hcmd0
    have hv := hch.injective (live_of_kind? hkind) (live_of_get? hn) (congrArg Command.vertex heq)
    rw [hv, kind?, hn, map_some, hcreate] at hkind
    cases hkind

include hch hc hguest hd in
/-- **The commands of the host come first, and then those of the guest with the resets.** -/
theorem sequel (hseq : c.Sequenced) : ∃ rest, Sequel ι c guest d rest := by
  obtain ⟨later, hwalk, hlater⟩ := hch.walk_eq hc hguest hd hseq
  have hcommands : d.commands = c.commands ++ later.filterMap (d.commandAt unitD) := by
    have hkeep : ∀ w, c.graph.Live w → ¬ c.IsOutput w → d.graph.vertices.contains w :=
      fun w hw hout => hch.live_host hw fun hend => hout hend.isOutput
    rw [hd.commands_eq, hwalk, filterMap_append, hc.commands_filter hkeep]
    refine congrArg (· ++ _) (filterMap_congr fun w hw => ?_)
    obtain ⟨hmem, hlive⟩ := mem_filter.mp hw
    exact hch.commandAt_host hc hd ((mem_map_bySequence hc.valid).mp (walkFor_subset hmem)) hlive
  have hcopied : ∀ {v cmd}, guest.graph.Live v → d.commandAt unitD (ι v) = some cmd →
      ∃ w ∈ later, d.commandAt unitD w = some cmd := by
    intro v cmd hv hcmd
    obtain ⟨_, _, k, hn⟩ := of_commandAt hcmd
    exact ⟨ι v, (hlater _).mpr ⟨live_of_get? hn, v, hv, rfl⟩, hcmd⟩
  refine ⟨_, hcommands, (perm_ext_iff_of_nodup ?_ (hch.nodup_contents hguest)).mpr fun cmd => ?_,
    fun xs cmd ys hrest v w hvw hcmd hop => exists_command_before hrest (fun done rest hsplit => ?_) hop⟩
  · have hnodup := hd.lists_commands.nodup.of_map
    rw [hcommands] at hnodup
    exact (nodup_append.mp hnodup).2.1
  · rw [mem_filterMap, mem_append, List.mem_map]
    constructor
    · rintro ⟨w, hw, hcmd⟩
      obtain ⟨_, v, hv, rfl⟩ := (hlater w).mp hw
      refine (hch.commandAt_copy hc hguest hd hv hcmd).imp_left fun ⟨cmd0, hcmd0, hmove⟩ => ⟨cmd0, ?_, hmove⟩
      exact hguest.mem_commands.mpr ((of_commandAt hcmd0).1 ▸ hcmd0)
    · rintro (⟨cmd0, hcmd0, rfl⟩ | hreset)
      · obtain ⟨_, _, k, hn⟩ := of_commandAt (hguest.mem_commands.mp hcmd0)
        exact hcopied (live_of_get? hn) (hch.commandAt_guest hc hguest hd (hguest.mem_commands.mp hcmd0))
      · obtain ⟨u, _, _, n, _, _, hn, _, rfl⟩ := mem_joinResets.mp hreset
        exact hcopied (live_of_get? hn) (hch.commandAt_reset hc hguest hd hreset)
  · -- what comes before a copy and is a copy itself is not in the first part of the walk
    have hv := (live_of_before hguest.threaded hvw).1
    have hlive : d.graph.Live (ι v) := by
      obtain ⟨n, hn, _⟩ := (any_eq_true _ _).mp hop
      exact live_of_get? hn
    have hbefore := hch.before_guest hc hvw hv hlive
    rw [hsplit, hcmd, ← append_assoc] at hwalk
    refine (mem_append.mp (walk_after hd.valid hd.threaded hwalk hbefore)).resolve_left fun hmem => ?_
    have hold := walkFor_subset (mem_filter.mp hmem).1
    exact hch.fresh hv ((mem_map_bySequence hc.valid).mp hold)

end Chained

/-! ## Appending -/

lemma IsRenamed.commandAt_eq (hren : IsRenamed ρ c c') :
    c'.commandAt (fun q => ρ.apply (unit q)) v = (c.commandAt unit v).map (Command.rename ρ) := by
  unfold commandAt
  rw [hren.graph_eq]
  split
  · simp [Command.rename]
  · rfl

lemma IsRenamed.commands_eq (hren : IsRenamed ρ c c') (h : c.WellFormed) :
    c'.commands = c.commands.map (Command.rename ρ) := by
  rw [(hren.wired h.wired).commands_eq, h.wired.commands_eq, map_filterMap, hren.graph_eq]
  exact filterMap_congr fun v _ => hren.commandAt_eq

/-- **`d` is `c` and then `guest`**, whose vertices have been moved by `ι`.
    * The units are those of both. A common unit runs on, and the others keep their wires.
    * What was read in the host is read as before. So is what was read in the guest, unless it came in from the host.
    * The commands of the host come first, if its sequence numbers are in order, as they are in every circuit that calls
      make (`Reachable.sequenced`). -/
structure Follows (ι : Vertex → Vertex) (c guest d : Circuit) : Prop where
  wellFormed : d.WellFormed
  fresh : ∀ {v}, guest.graph.Live v → ¬ c.graph.Live (ι v)
  injective : ∀ {v w}, guest.graph.Live v → guest.graph.Live w → ι v = ι w → v = w
  units : ∀ u, u ∈ d.units ↔ u ∈ c.units ∨ u ∈ guest.units
  common : ∀ {u host next}, c.boundary.get? u = some host → guest.boundary.get? u = some next →
    ∃ own later, Continued ι c guest d u host next own later
  host_only : ∀ {u}, u ∈ c.units → u ∉ guest.units → ∃ own, Kept id c d u own
  guest_only : ∀ {u}, u ∉ c.units → u ∈ guest.units → ∃ later, Kept ι guest d u later
  host_reads : ∀ {m}, c.graph.HasLink m → m.kind = .boolean → d.graph.HasLink m
  guest_reads : ∀ {m}, guest.graph.HasLink m → m.kind = .boolean →
    (∀ u ∈ c.units, ∀ next, guest.boundary.get? u = some next → m.source ≠ ⟨next.input, 0⟩) → d.graph.HasLink (m.map ι)
  commands : c.Sequenced → ∃ rest, Sequel ι c guest d rest
  name : d.name = c.name
  opgroups : d.opgroups = c.opgroups.unionLeft guest.opgroups
  phase : d.phase = c.phase + guest.phase

lemma IsAppended.follows (happ : IsAppended ι c guest d) (hc : c.Wired unit) (hguest : guest.Wired unitG) :
    Follows ι c guest d where
  wellFormed := happ.wellFormed
  fresh := happ.fresh
  injective := happ.injective
  units _ := happ.mem_units
  common hhost hnext := happ.continued hc hguest hhost hnext
  host_only hmem hnot := by
    obtain ⟨host, hhost⟩ := mem_units_iff.mp hmem
    exact happ.kept_host hc hhost (not_mem_units_iff.mp hnot)
  guest_only hnot hmem := by
    obtain ⟨next, hnext⟩ := mem_units_iff.mp hmem
    exact happ.kept_guest hc hguest (not_mem_units_iff.mp hnot) hnext
  host_reads {m} hm hbool := by
    refine happ.host_link hm ?_
    rintro ⟨u, host, next, hhost, _, heq⟩
    have hlin := WireKind.isLinear_wire u.kind
    rw [← hc.kind_of_output hhost hm heq.symm, hbool] at hlin
    cases hlin
  guest_reads {m} hm _ hsource := by
    refine happ.guest_link hm ?_
    rintro ⟨⟨u, host, next, hhost, hnext, heq⟩, _⟩
    exact hsource u (mem_units_iff.mpr ⟨host, hhost⟩) next hnext (hguest.source_input hnext hm heq.symm).1
  commands hseq := happ.sequel hc hguest happ.wellFormed.wired hseq
  name := happ.name
  opgroups := happ.opgroups
  phase := happ.phase

/-- **Appending puts one circuit after the other.** It succeeds just if the renamed circuit fits, and then it follows on
    the host. A failure changes nothing, and a unit that was discarded and is not created anew is one. -/
theorem appendRenamed_follows (hc : c.WellFormed) (hguest : guest.WellFormed) (ρ : Renaming) :
    (∀ a c', appendRenamed guest ρ c = .ok a c' → ∃ renamed ι, IsRenamed ρ guest renamed ∧
      renamed.commands = guest.commands.map (Command.rename ρ) ∧ Follows ι c renamed c') ∧
    ((∃ c', appendRenamed guest ρ c = .ok ⟨⟩ c') ↔
      ∃ changed renamed, guest.rename ρ = .ok (changed, renamed) ∧ c.Fits renamed) ∧
    (∀ e c', appendRenamed guest ρ c = .error e c' → c' = c) ∧
    ∀ u ∈ guest.units, c.endAt? .last (ρ.apply u) = some .discard → guest.endAt? .first u ≠ some .create →
      ∃ e, appendRenamed guest ρ c = .error e c := by
  have hcases := appendRenamed_cases hc hguest ρ
  refine ⟨fun a c' hrun => ?_, ?_, fun e c' herror => ?_, fun u hu hdiscard hcreate => ?_⟩
  · obtain ⟨_, renamed, ι, hrename, _, happ⟩ := appendRenamed_eq_ok hc hguest hrun
    have hren := rename_eq_ok hrename
    exact ⟨renamed, ι, hren, hren.commands_eq hguest, happ.follows hc.wired (hren.wired hguest.wired)⟩
  · rcases hcases with ⟨changed, renamed, c', ι, hrename, hfits, hrun, _⟩ | ⟨hnot, e, herror⟩
    · exact iff_of_true ⟨c', hrun⟩ ⟨changed, renamed, hrename, hfits⟩
    · refine iff_of_false (fun ⟨c', hrun⟩ => ?_) fun ⟨changed, renamed, hrename, hfits⟩ => hnot _ _ hrename hfits
      rw [herror] at hrun
      cases hrun
  · rcases hcases with ⟨_, _, c₁, _, _, _, hrun, _⟩ | ⟨_, e₁, herror₁⟩
    · rw [hrun] at herror
      cases herror
    · exact (EStateM.Result.error.inj (herror₁.symm.trans herror)).2.symm
  · refine hcases.resolve_left ?_ |>.2
    rintro ⟨_, renamed, _, _, hrename, hfits, _, _⟩
    have hren := rename_eq_ok hrename
    obtain ⟨next, hnext⟩ := mem_units_iff.mp hu
    obtain ⟨host, hhost, hkind⟩ := Option.bind_eq_some_iff.mp hdiscard
    have hcreated := hfits.ends hhost (hren.ends.mpr ⟨u, hnext, rfl⟩) hkind
    rw [hren.graph_eq] at hcreated
    exact hcreate ((endAt?_of_ends .first hnext).trans hcreated)

/-- A qubit that is created anew under another name, and a bit that is read after it was written in the host. -/
theorem appendRenamed_follows_created : ∃ c guest renamed c' ι,
    (ofUnits 2 1).edited (discard (addOp .measure [.qubit 0, .bit 0] none)) = .ok c ∧
    (ofUnits 1 1).edited (do
      createQubit (.qubit 0)
      discard (addOp (.conditional .reset 1 1) [.bit 0, .qubit 0] none)) = .ok guest ∧
    c.edited (appendRenamed guest (empty.insert (.qubit 0) (.qubit 1))) = .ok c' ∧
    IsRenamed (empty.insert (.qubit 0) (.qubit 1)) guest renamed ∧ Follows ι c renamed c' ∧
    ∃ rest, Sequel ι c renamed c' rest := by
  simp only [exists_and_left]
  refine exists_run fun c hc => exists_run fun guest hguest => ?_
  obtain ⟨c', hc', _⟩ : ∃ c', c.edited (appendRenamed guest (empty.insert (.qubit 0) (.qubit 1))) = .ok c' ∧ True :=
    of_run hc (of_run hguest (by decide +kernel))
  have hwell := wellFormed_edited hc
  have hwell' := wellFormed_edited hguest
  obtain ⟨_, hrun⟩ := edited_eq_ok.mp hc
  obtain ⟨_, hadd⟩ := discard_eq_ok.mp hrun
  have hseq : c.Sequenced := (Reachable.addOp (.ofUnits 2 1) hadd).sequenced
  obtain ⟨_, hrun'⟩ := edited_eq_ok.mp hc'
  obtain ⟨renamed, ι, hren, _, hfollows⟩ := (appendRenamed_follows hwell hwell' _).1 _ _ hrun'
  exact ⟨renamed, c', hc', hren, ι, hfollows, hfollows.commands hseq⟩

end Circuit

end Wireloom
