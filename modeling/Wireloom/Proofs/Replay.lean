import Mathlib.Data.List.Chain
import Wireloom.Proofs.Reachable

/-!
# `Circuit.IsoVia`, `Circuit.replay` — building a circuit again from its commands

The commands of a circuit, added one after the other to a blank circuit with the same units, build the circuit again:
every step succeeds, and the result is isomorphic to the circuit and has the same commands (`replay_commands`).
-/

namespace Wireloom

namespace Circuit

open Wireloom.Graph List Option Relation WireKind

variable {c c' : Circuit} {unit unit' : Pin → UnitId} {u : UnitId} {ends : Ends} {v w : Vertex} {p q : Pin} {l : Link}
  {k k' : WireKind} {rank : Vertex → ℕ} {i : ℕ} {cmd : Command}

/-! ## Wires and ranks -/

namespace Wired

lemma rank_le_source (h : c.Wired unit) (hrank : c.graph.net.Ranked rank) (hl : c.graph.HasLink l)
    (hq : c.graph.net.wireAt q = some k) (hk : k.isLinear) (hunit : unit q = unit l.source)
    (hlt : rank q.vertex < rank l.target.vertex) : rank q.vertex ≤ rank l.source.vertex := by
  have hsource := h.threaded.source_wire hl
  rcases h.path_of_unit hq hk hsource (isLinear_carrier _) hunit with hpath | hpath
  · exact hrank.le_of_path hpath
  · rcases ReflTransGen.cases_head hpath with heq | ⟨p1, ⟨k1, hk1, hnext⟩, hrest⟩
    · rw [heq]
    · -- the wire leads on to `p1`, which is the target or comes after it
      have hle : rank l.target.vertex ≤ rank p1.vertex := by
        by_cases hlin : l.kind.isLinear
        · have heq := h.threaded.out_unique hl hnext hlin hk1 rfl
          rw [heq]
        · have hread := eq_boolean hlin
          exact (hrank _ _ (.hazard hl hnext hread hk1 rfl)).le
      have hle' := hrank.le_of_path hrest
      omega

end Wired

/-! ## Stages -/

/-- **When a vertex has its turn**: the starts of units first, then the commands, then the ends. -/
def stage (c : Circuit) (v : Vertex) : ℕ :=
  match c.graph.kind? v with
  | some (.op _) => (c.commands.map Command.vertex).idxOf v + 1
  | some k => if k.isStart then 0 else c.commands.length + 1
  | none => 0

lemma stage_of_op {o : Op} (hk : c.graph.kind? v = some (.op o)) :
    c.stage v = (c.commands.map Command.vertex).idxOf v + 1 := by
  unfold stage
  rw [hk]

lemma Framed.stage_input (h : c.Framed) (hv : c.IsInput v) : c.stage v = 0 := by
  obtain ⟨u, _, hu, rfl⟩ := hv
  obtain ⟨k, hk, hstart⟩ := h.starts hu
  have hstart' := (startsUnit_cases hstart).1
  unfold stage
  rw [hk]
  cases k with
  | op o => cases hstart'
  | _ => exact if_pos hstart'

lemma Framed.stage_output (h : c.Framed) (hv : c.IsOutput v) : c.stage v = c.commands.length + 1 := by
  obtain ⟨u, _, hu, rfl⟩ := hv
  obtain ⟨k, hk, hend⟩ := h.stops hu
  have hstart := (endsUnit_cases hend).1
  unfold stage
  rw [hk]
  cases k with
  | op o => cases hend
  | _ => exact if_neg (by rw [hstart]; decide)

namespace Wired

section

variable (h : c.Wired unit)
include h

lemma stage_command (hcmd : c.commands[i]? = some cmd) : c.stage cmd.vertex = i + 1 := by
  have hlists := h.lists_commands
  obtain ⟨k, hn⟩ := hlists.content cmd (mem_of_getElem? hcmd)
  have hkind : c.graph.kind? cmd.vertex = some (.op cmd.op) := kind?_of_get? hn
  rw [stage_of_op hkind]
  obtain ⟨hi, heq⟩ := List.getElem?_eq_some_iff.mp hcmd
  have hi' : i < (c.commands.map Command.vertex).length := by rw [length_map]; exact hi
  have hplace : (c.commands.map Command.vertex)[i] = cmd.vertex := by rw [getElem_map, heq]
  rw [← hplace, hlists.nodup.idxOf_getElem i hi']

lemma exists_command {o : Op} (hk : c.graph.kind? v = some (.op o)) :
    ∃ (i : ℕ) (cmd : Command), c.commands[i]? = some cmd ∧ cmd.vertex = v := by
  obtain ⟨cmd, hcmd⟩ := exists_commandAt unit hk
  obtain ⟨rfl, _⟩ := of_commandAt hcmd
  obtain ⟨i, hi⟩ := getElem?_of_mem (h.mem_commands.mpr hcmd)
  exact ⟨i, cmd, hi, rfl⟩

lemma cases_live (hv : c.graph.Live v) :
    c.IsInput v ∨ c.IsOutput v ∨ ∃ (i : ℕ) (cmd : Command), c.commands[i]? = some cmd ∧ cmd.vertex = v := by
  obtain ⟨k, hk⟩ := live_iff_kind?.mp hv
  by_cases hb : k.isBoundary
  · rcases h.only_ops hk hb with hin | hout
    · exact .inl hin
    · exact .inr (.inl hout)
  · cases k with
    | op o => exact .inr (.inr (h.exists_command hk))
    | _ => exact absurd rfl hb

lemma kind_command (hcmd : c.commands[i]? = some cmd) : c.graph.kind? cmd.vertex = some (.op cmd.op) := by
  obtain ⟨k, hn⟩ := h.lists_commands.content cmd (mem_of_getElem? hcmd)
  rw [kind?, hn]
  rfl

lemma not_isInput_of_before (hvw : c.graph.net.Before v w) : ¬ c.IsInput w := by
  cases hvw with
  | @link l hl => exact h.target_open hl
  | @hazard a b _ hb _ _ _ => exact h.target_open hb

lemma ranked_stage : c.graph.net.Ranked c.stage := by
  intro v w hvw
  obtain ⟨hv, hw⟩ := h.threaded.toFitted.live_of_before hvw
  obtain ⟨_, hkv⟩ := kind?_of_signature hv
  obtain ⟨_, hkw⟩ := kind?_of_signature hw
  have hout := h.not_isOutput_of_before hvw
  have hin := h.not_isInput_of_before hvw
  rcases h.cases_live (live_of_kind? hkv) with hvin | hvout | ⟨i, cmd, hi, rfl⟩
  · rcases h.cases_live (live_of_kind? hkw) with hwin | hwout | ⟨j, cmd', hj, rfl⟩
    · exact absurd hwin hin
    · rw [h.stage_input hvin, h.stage_output hwout]
      omega
    · rw [h.stage_input hvin, h.stage_command hj]
      omega
  · exact absurd hvout hout
  · have hlt : i < c.commands.length := (List.getElem?_eq_some_iff.mp hi).1
    rcases h.cases_live (live_of_kind? hkw) with hwin | hwout | ⟨j, cmd', hj, rfl⟩
    · exact absurd hwin hin
    · rw [h.stage_command hi, h.stage_output hwout]
      omega
    · rw [stage_of_op (h.kind_command hi), stage_of_op (h.kind_command hj)]
      -- the commands are listed in the order of the walk, in which the first comes before the second
      have hwalk := idxOf_lt_idxOf (nodup_walk h.valid) (h.mem_walk.mpr (live_of_kind? hkw)) fun _ _ hwalk =>
        walk_after h.valid h.threaded hwalk hvw
      have hlisted := ((pairwise_iff_idxOf (nodup_walk h.valid)).mpr fun _ _ _ _ => id).sublist
        (filter_sublist (p := c.holdsOp))
      rw [← h.map_vertex_commands, pairwise_iff_idxOf h.lists_commands.nodup] at hlisted
      have hmem : ∀ {x : Command} {m : ℕ}, c.commands[m]? = some x → x.vertex ∈ c.commands.map Command.vertex :=
        fun hx => mem_map_of_mem (mem_of_getElem? hx)
      by_contra hle
      rcases Nat.lt_or_eq_of_le (by omega : idxOf cmd'.vertex (c.commands.map Command.vertex) ≤
        idxOf cmd.vertex (c.commands.map Command.vertex)) with hlt | heq
      · exact Nat.lt_asymm hwalk (hlisted _ (hmem hj) _ (hmem hi) hlt)
      · rw [(idxOf_inj (hmem hj)).mp heq] at hwalk
        exact lt_irrefl _ hwalk

/-! ## Arguments -/

lemma args_getElem? (hcmd : c.commands[i]? = some cmd) (hl : c.graph.HasLink l) (ht : l.target.vertex = cmd.vertex)
    : cmd.args[l.target.index]? = some (unit l.source) := by
  obtain ⟨_, hargs, n, hn⟩ := of_commandAt (h.mem_commands.mp (mem_of_getElem? hcmd))
  have hkind : c.graph.kind? cmd.vertex = some (.op cmd.op) := kind?_of_get? hn
  rw [hargs]
  exact h.units_getElem? hn (h.not_isInput_of_op hkind) hl ht

lemma args_of_linear (hcmd : c.commands[i]? = some cmd) (hp : c.graph.net.wireAt p = some k) (hk : k.isLinear)
    (hv : p.vertex = cmd.vertex) : cmd.args[p.index]? = some (unit p) := by
  have hin : ¬ c.IsInput p.vertex := by
    rw [hv]
    exact h.not_isInput_of_op (h.kind_command hcmd)
  obtain ⟨l, hl, rfl⟩ := (h.complete.fed_iff hp).mpr hin
  have hlk : l.kind = k := mem_unique (h.threaded.target_wire hl) hp
  rw [h.args_getElem? hcmd hl hv, h.threaded.same_unit hl (by rw [hlk]; exact hk)]

end

end Wired

/-! ## Isomorphic circuits -/

/-- **The vertices of two circuits correspond**, with the same content, the same links between the same pins, and the
    same ends of units. Operations have the same opgroups; ends of units have none in either, unless `c` has put one
    there. -/
structure IsoVia (ι : Vertex → Vertex) (c c' : Circuit) : Prop where
  injective : ∀ {v w}, c.graph.Live v → c.graph.Live w → ι v = ι w → v = w
  surjective : ∀ {w}, c'.graph.Live w → ∃ v, c.graph.Live v ∧ ι v = w
  kind : ∀ {v}, c.graph.Live v → c'.graph.kind? (ι v) = c.graph.kind? v
  opgroup : ∀ {v n}, c.graph.vertices.get? v = some n → (n.kind.isBoundary = true → n.opgroup = none) →
    ∃ n', c'.graph.vertices.get? (ι v) = some n' ∧ n'.opgroup = n.opgroup
  link : ∀ m, c'.graph.HasLink m ↔ ∃ l, c.graph.HasLink l ∧ l.map ι = m
  boundary : ∀ u, c'.boundary.get? u = (c.boundary.get? u).map fun ends => ⟨ι ends.input, ι ends.output⟩

/-- What stands at an end of a unit. -/
def endAt? (c : Circuit) (s : Side) (u : UnitId) : Option NodeKind :=
  (c.boundary.get? u).bind fun ends => c.graph.kind? (s.vertex ends)

lemma endAt?_of_ends (s : Side) (hu : c.boundary.get? u = some ends) : c.endAt? s u = c.graph.kind? (s.vertex ends) := by
  rw [endAt?, hu, bind_some]

/-- **The same ends of units and the same commands.** -/
structure Agree (c c' : Circuit) : Prop where
  ends : ∀ s u, c.endAt? s u = c'.endAt? s u
  contents : c.commands.map Command.content = c'.commands.map Command.content

/-- Vertices that have the same place in both circuits. -/
inductive Fellow (c c' : Circuit) : Vertex → Vertex → Prop
  | input {u : UnitId} {ends ends' : Ends} : c.boundary.get? u = some ends → c'.boundary.get? u = some ends' →
      Fellow c c' ends.input ends'.input
  | output {u : UnitId} {ends ends' : Ends} : c.boundary.get? u = some ends → c'.boundary.get? u = some ends' →
      Fellow c c' ends.output ends'.output
  | command {i : ℕ} {cmd cmd' : Command} : c.commands[i]? = some cmd → c'.commands[i]? = some cmd' →
      Fellow c c' cmd.vertex cmd'.vertex

lemma Agree.symm (h : c.Agree c') : c'.Agree c :=
  ⟨fun s u => (h.ends s u).symm, h.contents.symm⟩

lemma Fellow.symm (h : c.Fellow c' v w) : c'.Fellow c w v := by
  cases h with
  | input hu hu' => exact .input hu' hu
  | output hu hu' => exact .output hu' hu
  | command hi hi' => exact .command hi' hi

lemma Wired.fellow_unique (h : c.Wired unit) {w' : Vertex} (hvw : c.Fellow c' v w) (hvw' : c.Fellow c' v w') : w = w' := by
  cases hvw with
  | @input u ends ends' hu hu' =>
    generalize hv : ends.input = v at hvw'
    cases hvw' with
    | input hu1 hu1' =>
      have huu := h.unit_input hu1
      rw [← hv, h.unit_input hu] at huu
      subst huu
      rw [mem_unique hu' hu1']
    | output hu1 _ => exact absurd ⟨_, _, hu1, hv.symm⟩ (h.not_isOutput ⟨_, _, hu, rfl⟩)
    | command hi _ => exact absurd ⟨_, _, hu, hv⟩ (h.not_isInput_of_op (h.kind_command hi))
  | @output u ends ends' hu hu' =>
    generalize hv : ends.output = v at hvw'
    cases hvw' with
    | input hu1 _ => exact absurd ⟨_, _, hu, hv⟩ (h.not_isOutput ⟨_, _, hu1, rfl⟩)
    | output hu1 hu1' =>
      have huu := h.unit_output hu1
      rw [← hv, h.unit_output hu] at huu
      subst huu
      rw [mem_unique hu' hu1']
    | command hi _ =>
      have hend := (h.isEnd_iff (h.kind_command hi)).mpr ⟨_, _, hu, hv⟩
      cases hend
  | @command i cmd cmd' hi hi' =>
    generalize hv : cmd.vertex = v at hvw'
    cases hvw' with
    | input hu _ => exact absurd ⟨_, _, hu, hv.symm⟩ (h.not_isInput_of_op (h.kind_command hi))
    | output hu _ =>
      have hend := (h.isEnd_iff (h.kind_command hi)).mpr ⟨_, _, hu, hv.symm⟩
      cases hend
    | command hj hj' =>
      have hstage := h.stage_command hj
      rw [← hv, h.stage_command hi] at hstage
      cases hstage
      rw [mem_unique hi' hj']

namespace Agree

section Fellows

variable (ha : c.Agree c') (h : c.Wired unit) (h' : c'.Wired unit')
include ha

lemma exists_command (hi : c.commands[i]? = some cmd) : ∃ cmd', c'.commands[i]? = some cmd' ∧ cmd'.op = cmd.op ∧
    cmd'.args = cmd.args ∧ cmd'.opgroup = cmd.opgroup := by
  have hplace := congrArg (·[i]?) ha.contents
  simp only [getElem?_map, hi, map_some] at hplace
  obtain ⟨cmd', hi', hcontent⟩ := map_eq_some_iff.mp hplace.symm
  exact ⟨cmd', hi', by simpa [Command.content] using hcontent⟩

include h

lemma exists_ends (hu : c.boundary.get? u = some ends) :
    ∃ ends', c'.boundary.get? u = some ends' ∧ c'.graph.kind? ends'.input = c.graph.kind? ends.input ∧
      c'.graph.kind? ends'.output = c.graph.kind? ends.output := by
  obtain ⟨k, hk, _⟩ := h.starts hu
  have hfirst := ha.ends .first u
  have hlast := ha.ends .last u
  rw [endAt?_of_ends .first hu, show c.graph.kind? (Side.first.vertex ends) = some k from hk] at hfirst
  obtain ⟨ends', hu', hk'⟩ := bind_eq_some_iff.mp hfirst.symm
  rw [endAt?_of_ends .last hu, endAt?_of_ends .last hu'] at hlast
  exact ⟨ends', hu', hk'.trans hk.symm, hlast.symm⟩

lemma exists_fellow (hv : c.graph.Live v) : ∃ w, c.Fellow c' v w := by
  rcases h.cases_live hv with ⟨u, ends, hu, rfl⟩ | ⟨u, ends, hu, rfl⟩ | ⟨i, _, hi, rfl⟩
  · obtain ⟨ends', hu', _⟩ := ha.exists_ends h hu
    exact ⟨_, .input hu hu'⟩
  · obtain ⟨ends', hu', _⟩ := ha.exists_ends h hu
    exact ⟨_, .output hu hu'⟩
  · obtain ⟨_, hi', _⟩ := ha.exists_command hi
    exact ⟨_, .command hi hi'⟩

include h'

lemma kind_fellow (hvw : c.Fellow c' v w) : c'.graph.kind? w = c.graph.kind? v := by
  cases hvw with
  | input hu hu' =>
    obtain ⟨ends', heq, hkind, _⟩ := ha.exists_ends h hu
    rw [hu'] at heq
    cases heq
    exact hkind
  | output hu hu' =>
    obtain ⟨ends', heq, _, hkind⟩ := ha.exists_ends h hu
    rw [hu'] at heq
    cases heq
    exact hkind
  | command hi hi' =>
    obtain ⟨_, heq, hop, _⟩ := ha.exists_command hi
    rw [hi'] at heq
    cases heq
    rw [h.kind_command hi, h'.kind_command hi', hop]

lemma wireAt_fellow (hvw : c.Fellow c' v w) (j : ℕ) : c'.graph.net.wireAt ⟨w, j⟩ = c.graph.net.wireAt ⟨v, j⟩ := by
  show ((c'.graph.kind? w).map _).bind _ = ((c.graph.kind? v).map _).bind _
  rw [ha.kind_fellow h h' hvw]

lemma stage_fellow (hvw : c.Fellow c' v w) : c'.stage w = c.stage v := by
  have hlength : c'.commands.length = c.commands.length := by
    simpa using (congrArg length ha.contents).symm
  cases hvw with
  | input hu hu' => rw [h.stage_input ⟨_, _, hu, rfl⟩, h'.stage_input ⟨_, _, hu', rfl⟩]
  | output hu hu' => rw [h.stage_output ⟨_, _, hu, rfl⟩, h'.stage_output ⟨_, _, hu', rfl⟩, hlength]
  | command hi hi' => rw [h.stage_command hi, h'.stage_command hi']

lemma unit_fellow (hvw : c.Fellow c' v w) {j : ℕ} (hp : c.graph.net.wireAt ⟨v, j⟩ = some k) (hk : k.isLinear) :
    unit' ⟨w, j⟩ = unit ⟨v, j⟩ := by
  have hp' := ha.wireAt_fellow h h' hvw j
  rw [hp] at hp'
  cases hvw with
  | input hu hu' =>
    rw [(Net.pin_of_single (h.signature_input hu) hp).1, (Net.pin_of_single (h'.signature_input hu') hp').1]
    exact (h'.unit_input hu').trans (h.unit_input hu).symm
  | output hu hu' =>
    rw [(Net.pin_of_single (h.signature_output hu) hp).1, (Net.pin_of_single (h'.signature_output hu') hp').1]
    exact (h'.unit_output hu').trans (h.unit_output hu).symm
  | command hi hi' =>
    obtain ⟨_, heq, _, hargs, _⟩ := ha.exists_command hi
    rw [hi'] at heq
    cases heq
    have harg := h.args_of_linear hi hp hk rfl
    have harg' := h'.args_of_linear hi' hp' hk rfl
    rw [hargs, harg] at harg'
    exact (some.inj harg').symm

lemma source_unit_fellow {l' : Link} (hl : c.graph.HasLink l) (hl' : c'.graph.HasLink l')
    (hvw : c.Fellow c' l.target.vertex l'.target.vertex) (hindex : l'.target.index = l.target.index) :
    unit' l'.source = unit l.source := by
  by_cases hlin : l.kind.isLinear
  · have hwire := h.threaded.target_wire hl
    have hwire' := ha.wireAt_fellow h h' hvw l.target.index
    rw [← hindex] at hwire'
    have hkind : l'.kind = l.kind := by
      have hsame : c.graph.net.wireAt ⟨l.target.vertex, l'.target.index⟩ = some l.kind := by
        rw [hindex]
        exact hwire
      rw [hsame] at hwire'
      exact mem_unique (h'.threaded.target_wire hl') hwire'
    rw [h.threaded.same_unit hl hlin, h'.threaded.same_unit hl' (by rw [hkind]; exact hlin)]
    have hunit := ha.unit_fellow h h' hvw hwire hlin
    rw [← hindex] at hunit
    rw [show l.target = ⟨l.target.vertex, l'.target.index⟩ by rw [hindex]]
    exact hunit
  · -- only operations read
    generalize hv : l.target.vertex = v at hvw
    generalize hw : l'.target.vertex = w at hvw
    cases hvw with
    | input hu hu' =>
      exact absurd ⟨_, _, hu, hv.symm⟩ (h.target_open hl)
    | output hu hu' =>
      have hlinear := h.complete.not_boolean_of_last h.threaded.toFitted hl ⟨_, _, hu, hv.symm⟩
      exact absurd hlinear hlin
    | command hi hi' =>
      obtain ⟨_, heq, _, hargs, _⟩ := ha.exists_command hi
      rw [hi'] at heq
      cases heq
      have harg := h.args_getElem? hi hl hv
      have harg' := h'.args_getElem? hi' hl' hw
      rw [hargs, hindex, harg] at harg'
      exact (some.inj harg').symm

lemma link_fellow (hl : c.graph.HasLink l) {x y : Vertex} (hx : c.Fellow c' l.source.vertex x)
    (hy : c.Fellow c' l.target.vertex y) :
    c'.graph.HasLink ⟨⟨x, l.source.index⟩, ⟨y, l.target.index⟩, l.kind⟩ := by
  have htarget := (ha.wireAt_fellow h h' hy l.target.index).trans (h.threaded.target_wire hl)
  have hsource := (ha.wireAt_fellow h h' hx l.source.index).trans (h.threaded.source_wire hl)
  have hnot : ¬ c'.IsInput y := by
    intro hin
    obtain ⟨k, hk⟩ := live_iff_kind?.mp (h.valid.target_live hl)
    have hstart := (h'.isStart_iff ((ha.kind_fellow h h' hy).trans hk)).mpr hin
    exact h.target_open hl ((h.isStart_iff hk).mp hstart)
  obtain ⟨l', hl', ht'⟩ := (h'.complete.fed_iff htarget).mpr hnot
  have hkind : l'.kind = l.kind := by
    have hwire := h'.threaded.target_wire hl'
    rw [ht', htarget] at hwire
    exact (some.inj hwire).symm
  have hy' : c.Fellow c' l.target.vertex l'.target.vertex := by rw [ht']; exact hy
  have hunit := ha.source_unit_fellow h h' hl hl' hy' (by rw [ht'])
  have hunit' := (ha.unit_fellow h h' hx (h.threaded.source_wire hl) (isLinear_carrier _)).trans hunit.symm
  -- the two sources are each other's latest pins before the target
  have hforth : c'.stage x ≤ c'.stage l'.source.vertex := by
    refine h'.rank_le_source h'.ranked_stage hl' hsource (isLinear_carrier _) hunit' ?_
    rw [ha.stage_fellow h h' hx, ha.stage_fellow h h' hy']
    exact h.ranked_stage.link hl
  have hback : c'.stage l'.source.vertex ≤ c'.stage x := by
    obtain ⟨z, hz⟩ := ha.symm.exists_fellow h' (h'.valid.source_live hl')
    have hwire := (ha.symm.wireAt_fellow h' h hz l'.source.index).trans (h'.threaded.source_wire hl')
    have hzunit := ha.symm.unit_fellow h' h hz (h'.threaded.source_wire hl') (isLinear_carrier _)
    have hle := h.rank_le_source h.ranked_stage hl hwire (isLinear_carrier _) (hzunit.trans hunit) (by
      rw [ha.symm.stage_fellow h' h hz, ← ha.stage_fellow h h' hy']
      exact h'.ranked_stage.link hl')
    rw [ha.stage_fellow h h' hx, ← ha.symm.stage_fellow h' h hz]
    exact hle
  have hpin := h'.pin_eq_of_rank h'.ranked_stage (h'.threaded.source_wire hl') (isLinear_carrier _) hsource
      (isLinear_carrier _) hunit'.symm (le_antisymm hback hforth)
  rw [← hpin, ← ht', ← hkind]
  exact hl'

end Fellows

lemma isoVia (ha : c.Agree c') (hc : c.WellFormed) (hc' : c'.WellFormed)
    (hplain : ∀ w n, c'.graph.vertices.get? w = some n → n.kind.isBoundary → n.opgroup = none) :
    ∃ ι, IsoVia ι c c' := by
  have h := hc.wired
  have h' := hc'.wired
  -- each vertex goes to its fellow: the same end of a unit, or the command in the same place
  have hchoice : ∀ v, ∃ w, c.graph.Live v → c.Fellow c' v w := by
    intro v
    by_cases hv : c.graph.Live v
    · obtain ⟨w, hw⟩ := ha.exists_fellow h hv
      exact ⟨w, fun _ => hw⟩
    · exact ⟨v, fun hlive => absurd hlive hv⟩
  choose ι hι using hchoice
  have hunique : ∀ {v w}, c.graph.Live v → c.Fellow c' v w → ι v = w := fun hv hw =>
    h.fellow_unique (hι _ hv) hw
  have hlive : ∀ {v w}, c.Fellow c' v w → c'.graph.Live w → c.graph.Live v := by
    intro v w hvw hw
    obtain ⟨k, hk⟩ := live_iff_kind?.mp hw
    exact live_of_kind? ((ha.kind_fellow h h' hvw).symm.trans hk)
  have hback : ∀ {w}, c'.graph.Live w → ∃ v, c.graph.Live v ∧ c.Fellow c' v w := by
    intro w hw
    obtain ⟨v, hv⟩ := ha.symm.exists_fellow h' hw
    exact ⟨v, hlive hv.symm hw, hv.symm⟩
  refine ⟨ι, ?_, ?_, fun hv => ha.kind_fellow h h' (hι _ hv), ?_, fun m => ⟨fun hm => ?_, ?_⟩, fun u => ?_⟩
  · intro v w hv hw heq
    exact h'.fellow_unique (hι v hv).symm (heq ▸ (hι w hw).symm)
  · intro w hw
    obtain ⟨v, hv, hvw⟩ := hback hw
    exact ⟨v, hv, hunique hv hvw⟩
  · intro v n hn hnone
    have hk : c.graph.kind? v = some n.kind := kind?_of_get? hn
    by_cases hb : n.kind.isBoundary
    · have hk' := (ha.kind_fellow h h' (hι v (live_of_kind? hk))).trans hk
      obtain ⟨n', hn', hkind⟩ := map_eq_some_iff.mp hk'
      exact ⟨n', hn', (hplain _ _ hn' (by rw [hkind]; exact hb)).trans (hnone hb).symm⟩
    · obtain ⟨o, ho⟩ : ∃ o, n.kind = .op o := by
        cases hkind : n.kind with
        | op o => exact ⟨o, rfl⟩
        | _ => rw [hkind] at hb; exact absurd rfl hb
      obtain ⟨i, cmd, hi, rfl⟩ := h.exists_command (ho ▸ hk)
      obtain ⟨cmd', hi', _, _, hog⟩ := ha.exists_command hi
      obtain ⟨_, hnode⟩ := h.lists_commands.content cmd (mem_of_getElem? hi)
      obtain ⟨_, hnode'⟩ := h'.lists_commands.content cmd' (mem_of_getElem? hi')
      rw [hn] at hnode
      cases hnode
      rw [hunique (live_of_kind? hk) (.command hi hi')]
      exact ⟨_, hnode', hog⟩
  · obtain ⟨x, hx, hfx⟩ := hback (h'.valid.source_live hm)
    obtain ⟨y, hy, hfy⟩ := hback (h'.valid.target_live hm)
    refine ⟨_, ha.symm.link_fellow h' h hm hfx.symm hfy.symm, ?_⟩
    unfold Link.map Pin.map
    rw [hunique hx hfx, hunique hy hfy]
  · rintro ⟨l, hl, rfl⟩
    exact ha.link_fellow h h' hl (hι _ (h.valid.source_live hl)) (hι _ (h.valid.target_live hl))
  · cases hu : c.boundary.get? u with
    | none =>
      cases hu' : c'.boundary.get? u with
      | none => rfl
      | some ends' =>
        obtain ⟨ends, heq, _⟩ := ha.symm.exists_ends h' hu'
        rw [hu] at heq
        cases heq
    | some ends =>
      obtain ⟨ends', hu', _⟩ := ha.exists_ends h hu
      rw [hu', map_some, hunique (h.live_input hu) (.input hu hu'), hunique (h.live_output hu) (.output hu hu')]

end Agree

end Circuit

/-! # `Circuit.depth` — the longest chain of commands -/

open List

/-- The two commands act on a common unit. -/
def Command.Shares (a b : Command) : Prop := ∃ u ∈ a.args, u ∈ b.args

lemma foldl_max_le_iff {α : Type} {f : α → Nat} {l : List α} {b n : Nat} :
    l.foldl (fun d u => max d (f u)) b ≤ n ↔ b ≤ n ∧ ∀ u ∈ l, f u ≤ n := by
  induction l generalizing b with
  | nil => simp
  | cons u rest ih => rw [foldl_cons, ih, forall_mem_cons, Nat.max_le, and_assoc]

lemma sublist_concat_iff {α : Type} {s l : List α} {x : α} : s <+ l ++ [x] ↔ s <+ l ∨ ∃ t, s = t ++ [x] ∧ t <+ l := by
  rw [sublist_append_iff]
  constructor
  · rintro ⟨t, r, rfl, ht, hr⟩
    rcases sublist_singleton.mp hr with rfl | rfl
    · exact .inl (by rwa [append_nil])
    · exact .inr ⟨t, rfl, ht⟩
  · rintro (hs | ⟨t, rfl, ht⟩)
    · exact ⟨s, [], (append_nil s).symm, hs, nil_sublist _⟩
    · exact ⟨t, [x], rfl, ht, .refl _⟩

namespace Circuit

open Command Wireloom.Graph

variable {c c' : Circuit} {unit : Pin → UnitId} {cmds s : List Command} {cmd : Command} {depths : SortedMap UnitId Nat}
  {u : UnitId} {most n : Nat} {v w : Vertex} {l : Link} {args : List UnitId} {path done rest : List Vertex}

/-! ## One command more -/

def level (depths : SortedMap UnitId Nat) (u : UnitId) : Nat := (depths.get? u).getD 0

lemma deepen_fst_le_iff : (deepen depths args).1 ≤ n ↔ 1 ≤ n ∧ ∀ u ∈ args, level depths u + 1 ≤ n := by
  have hmax := foldl_max_le_iff (f := level depths) (l := args) (b := 0) (n := n - 1)
  show args.foldl (fun d u => max d (level depths u)) 0 + 1 ≤ n ↔ _
  cases n with
  | zero => simp
  | succ n => simpa using hmax

lemma level_deepen : level (deepen depths args).2 u = if u ∈ args then (deepen depths args).1 else level depths u := by
  have hfold : ∀ d (m : SortedMap UnitId Nat),
      level (args.foldl (fun m u => m.insert u d) m) u = if u ∈ args then d else level m u := by
    intro d m
    induction args generalizing m with
    | nil => rfl
    | cons a rest ih =>
      rw [foldl_cons, ih, level, SortedMap.get?_insert]
      by_cases hu : u = a <;> simp [hu, level]
  exact hfold _ _

/-- **The numbers after some commands.** `most` is the least bound on the lengths of all chains, and the number of a unit
    that of the chains whose last command acts on it. -/
structure Levels (cmds : List Command) (most : Nat) (depths : SortedMap UnitId Nat) : Prop where
  most_le : ∀ {n}, most ≤ n ↔ ∀ s, s <+ cmds → s.IsChain Shares → s.length ≤ n
  level_le : ∀ {u n}, level depths u ≤ n ↔ ∀ s x, s ++ [x] <+ cmds → (s ++ [x]).IsChain Shares → u ∈ x.args → s.length + 1 ≤ n

lemma Levels.deepen_le (h : Levels cmds most depths) : (deepen depths cmd.args).1 ≤ n ↔
    ∀ s, s <+ cmds → (s ++ [cmd]).IsChain Shares → s.length + 1 ≤ n := by
  rw [deepen_fst_le_iff]
  constructor
  · rintro ⟨hpos, hargs⟩ s hs hchain
    rcases eq_nil_or_concat' s with rfl | ⟨t, x, rfl⟩
    · exact hpos
    · -- the command before shares a unit, whose number bounds what leads there
      obtain ⟨ht, _, hshares⟩ := isChain_append.mp hchain
      obtain ⟨u, hx, hu⟩ := hshares x (by simp) cmd rfl
      have hlevel := h.level_le.mp (le_refl _) t x hs ht hx
      have hle := hargs u hu
      rw [length_append, length_singleton]
      omega
  · intro hall
    have hpos : 1 ≤ n := hall [] (nil_sublist _) (isChain_singleton _)
    refine ⟨hpos, fun u hu => ?_⟩
    have hlevel : level depths u ≤ n - 1 := by
      refine h.level_le.mpr fun s x hs hchain hx => ?_
      have hlength := hall (s ++ [x]) hs (isChain_append.mpr ⟨hchain, isChain_singleton _, fun y hy z hz => ?_⟩)
      · rw [length_append, length_singleton] at hlength
        omega
      · cases hz
        rw [getLast?_concat] at hy
        cases hy
        exact ⟨u, hx, hu⟩
    omega

lemma Levels.step (h : Levels cmds most depths) (cmd : Command) :
    Levels (cmds ++ [cmd]) (max most (deepen depths cmd.args).1) (deepen depths cmd.args).2 where
  most_le {n} := by
    rw [Nat.max_le, h.most_le, h.deepen_le]
    constructor
    · rintro ⟨hold, hnew⟩ s hs hchain
      rcases sublist_concat_iff.mp hs with hs | ⟨t, rfl, ht⟩
      · exact hold s hs hchain
      · rw [length_append, length_singleton]
        exact hnew t ht hchain
    · intro hall
      refine ⟨fun s hs => hall s (hs.trans (sublist_append_left _ _)), fun s hs hchain => ?_⟩
      simpa using hall (s ++ [cmd]) (hs.append (.refl _)) hchain
  level_le {u n} := by
    have hsplit : (∀ s x, s ++ [x] <+ cmds ++ [cmd] → (s ++ [x]).IsChain Shares → u ∈ x.args → s.length + 1 ≤ n) ↔
        level depths u ≤ n ∧ (u ∈ cmd.args → (deepen depths cmd.args).1 ≤ n) := by
      rw [h.level_le, h.deepen_le]
      constructor
      · exact fun hall => ⟨fun s x hs => hall s x (hs.trans (sublist_append_left _ _)),
          fun hu s hs hchain => hall s cmd (hs.append (.refl _)) hchain hu⟩
      · rintro ⟨hold, hnew⟩ s x hs hchain hx
        rcases sublist_concat_iff.mp hs with hs | ⟨t, heq, ht⟩
        · exact hold s x hs hchain hx
        · obtain ⟨rfl, hxy⟩ := append_inj' heq rfl
          cases hxy
          exact hnew hx s ht hchain
    rw [hsplit, level_deepen]
    by_cases hu : u ∈ cmd.args
    · have hlt := (deepen_fst_le_iff.mp (le_refl (deepen depths cmd.args).1)).2 u hu
      rw [if_pos hu]
      simp only [hu, forall_const]
      omega
    · simp [hu]

/-- The numbers after a list of commands. -/
def levels (cmds : List Command) : Nat × SortedMap UnitId Nat :=
  cmds.foldl (fun s cmd => (max s.1 (deepen s.2 cmd.args).1, (deepen s.2 cmd.args).2)) (0, .empty)

lemma depth_eq (c : Circuit) : c.depth = (levels c.commands).1 := rfl

lemma levels_concat : levels (cmds ++ [cmd]) =
    (max (levels cmds).1 (deepen (levels cmds).2 cmd.args).1, (deepen (levels cmds).2 cmd.args).2) :=
  foldl_concat ..

lemma levels_spec (cmds : List Command) : Levels cmds (levels cmds).1 (levels cmds).2 := by
  induction cmds using reverseRecOn with
  | nil =>
    constructor
    · simp [levels, sublist_nil]
    · simp [levels, level, sublist_nil]
  | append_singleton cmds cmd ih =>
    rw [levels_concat]
    exact ih.step cmd

lemma levels_isGreatest (cmds : List Command) :
    IsGreatest {n | ∃ s, s <+ cmds ∧ s.IsChain Shares ∧ s.length = n} (levels cmds).1 := by
  have hle := fun {n} => (levels_spec cmds).most_le (n := n)
  refine ⟨?_, ?_⟩
  · by_contra hnone
    simp only [Set.mem_ofPred_eq, not_exists, not_and] at hnone
    have hbelow : (levels cmds).1 ≤ (levels cmds).1 - 1 := hle.mpr fun s hs hchain => by
      have hs' := hle.mp le_rfl s hs hchain
      have hne := hnone s hs hchain
      omega
    exact hnone [] (nil_sublist _) .nil (by show 0 = _; omega)
  · rintro _ ⟨s, hs, hchain, rfl⟩
    exact hle.mp le_rfl s hs hchain

lemma deepen_levels_le : (deepen (levels cmds).2 args).1 ≤ (levels cmds).1 + 1 := by
  have h := levels_spec cmds
  refine deepen_fst_le_iff.mpr ⟨by omega, fun u _ => Nat.add_le_add_right ?_ 1⟩
  refine h.level_le.mpr fun s x hs hchain _ => ?_
  simpa using h.most_le.mp le_rfl (s ++ [x]) hs hchain

/-! ## Paths -/

namespace Wired

section

variable (h : c.Wired unit)
include h

lemma shares_of_before {a b : Command} (ha : c.commandAt unit v = some a) (hb : c.commandAt unit w = some b)
    (hvw : c.graph.net.Before v w) : a.Shares b := by
  obtain ⟨rfl, _⟩ := of_commandAt ha
  obtain ⟨hw, _⟩ := of_commandAt hb
  obtain ⟨i, hi⟩ := getElem?_of_mem (h.mem_commands.mpr ha)
  obtain ⟨j, hj⟩ := getElem?_of_mem (h.mem_commands.mpr (hw ▸ hb))
  generalize hv : a.vertex = v at hvw
  cases hvw with
  | @link l hl =>
    have hlin := WireKind.isLinear_carrier l.kind
    exact ⟨unit l.source, mem_of_getElem? (h.args_of_linear hi (h.threaded.source_wire hl) hlin hv.symm),
      mem_of_getElem? (h.args_getElem? hj hl hw.symm)⟩
  | @hazard x y hx hy _ _ heq =>
    exact ⟨unit x.source, mem_of_getElem? (h.args_getElem? hi hx hv.symm),
      by rw [heq]; exact mem_of_getElem? (h.args_getElem? hj hy hw.symm)⟩

lemma isSome_commandAt_of_between {x : Vertex} (hvw : c.graph.net.Before v w) (hwx : c.graph.net.Before w x) :
    (c.commandAt unit w).isSome := by
  rcases h.cases_live (live_of_before h.threaded hvw).2 with hin | hout | ⟨i, cmd, hi, rfl⟩
  · exact absurd hin (h.not_isInput_of_before hvw)
  · exact absurd hout (h.not_isOutput_of_before hwx)
  · rw [h.mem_commands.mp (mem_of_getElem? hi)]
    rfl

/-- The operations on a path share units one by one: only the ends of a path can be something else. -/
lemma isChain_commandAt (hpath : path.IsChain c.graph.Precedes) : (path.filterMap (c.commandAt unit)).IsChain Shares := by
  have hbefore := fun {v w} => (mem_pairs_iff (v := v) (w := w) h.valid h.threaded).mp
  induction path with
  | nil => exact .nil
  | cons v rest ih =>
    have hrest := ih hpath.tail
    cases ha : c.commandAt unit v with
    | none => rwa [filterMap_cons_none ha]
    | some a =>
      rw [filterMap_cons_some ha]
      cases rest with
      | nil => exact isChain_singleton _
      | cons w rest =>
        obtain ⟨hvw, hrest'⟩ := isChain_cons_cons.mp hpath
        cases hb : c.commandAt unit w with
        | some b =>
          rw [filterMap_cons_some hb] at hrest ⊢
          exact isChain_cons_cons.mpr ⟨h.shares_of_before ha hb (hbefore hvw), hrest⟩
        | none =>
          cases rest with
          | nil => rw [filterMap_cons_none hb]; exact isChain_singleton _
          | cons x rest =>
            have hsome := h.isSome_commandAt_of_between (hbefore hvw) (hbefore (isChain_cons_cons.mp hrest').1)
            rw [hb] at hsome
            cases hsome

lemma sublist_walk (hpath : path.IsChain c.graph.Precedes) (hwalk : c.graph.walk = done ++ rest)
    (hlast : ∀ v ∈ path.getLast?, v ∈ done) : path <+ done := by
  induction path using reverseRecOn generalizing done rest with
  | nil => exact nil_sublist _
  | append_singleton path v ih =>
    obtain ⟨before, after, rfl⟩ := append_of_mem (hlast v (by simp))
    obtain ⟨hpath, _, hstep⟩ := isChain_append.mp hpath
    refine (ih hpath (hwalk.trans (append_assoc ..)) fun w hw => ?_).append (singleton_sublist.mpr mem_cons_self)
    exact walk_after_of_precedes h.valid (hwalk.trans (append_assoc ..)) (hstep w hw v rfl)

lemma length_path_le (hpath : path.IsChain c.graph.Precedes) : path.countP c.holdsOp ≤ c.depth := by
  have hcount : path.countP c.holdsOp = (path.filterMap (c.commandAt unit)).length := by
    rw [length_filterMap_eq_countP]
    exact countP_congr fun v _ => by rw [isSome_commandAt]
  by_cases hlast : ∀ v ∈ path.getLast?, v ∈ c.graph.walk
  · have hsub := (h.sublist_walk hpath (append_nil _).symm hlast).filterMap (c.commandAt unit)
    rw [← h.commands_eq] at hsub
    rw [hcount]
    exact (levels_isGreatest _).2 ⟨_, hsub, h.isChain_commandAt hpath, rfl⟩
  · -- a path that ends at no vertex of the graph has no step
    push Not at hlast
    obtain ⟨v, hv, hnot⟩ := hlast
    have hdead : ¬ c.graph.Live v := fun hlive => hnot (h.mem_walk.mpr hlive)
    obtain ⟨p, rfl⟩ := getLast?_eq_some_iff.mp hv
    rcases eq_nil_or_concat' p with rfl | ⟨p, w, rfl⟩
    · have hop : c.holdsOp v = false := by
        rw [holdsOp, Option.not_isSome_iff_eq_none.mp hdead]
        rfl
      simp [hop]
    · have hstep := (isChain_append.mp hpath).2.2 w (by simp) v rfl
      exact absurd (live_of_precedes h.valid hstep).2 hdead

end

end Wired

/-- **The depth is the length of the longest chain of commands** where each shares a unit with the next. So it is at
    least the number of operations on any path along edges and hazards and at most the number of operations, and an
    operation more adds one at most. For the last the numbers of vertices have to go upwards, as they do in all circuits
    that calls make (`Reachable.sequenced`). -/
theorem depth_isGreatest (h : c.WellFormed) : IsGreatest {n | ∃ s, s <+ c.commands ∧ s.IsChain Shares ∧ s.length = n} c.depth ∧
      (∀ path : List Vertex, path.IsChain c.graph.Precedes → path.countP c.holdsOp ≤ c.depth) ∧
      c.depth ≤ c.opCount ∧
      (c.Sequenced → ∀ op args og v c', addOp op args og c = .ok v c' → c.depth ≤ c'.depth ∧ c'.depth ≤ c.depth + 1) := by
  have hgreatest := levels_isGreatest c.commands
  refine ⟨hgreatest, fun path => h.wired.length_path_le, ?_, fun hseq op args og v c' hrun => ?_⟩
  · obtain ⟨⟨s, hs, _, hlength⟩, _⟩ := hgreatest
    rw [depth_eq, ← hlength, ← h.wired.lists_commands.length]
    exact hs.length_le
  · obtain ⟨_, _, _, hextends⟩ := addOp_eq_ok h.wired hrun
    rw [depth_eq, depth_eq, hextends.commands_eq hseq, levels_concat]
    exact ⟨Nat.le_max_left .., Nat.max_le.mpr ⟨by omega, deepen_levels_le⟩⟩

/-- Two resets that read one bit share it, though no path leads from one to the other. -/
theorem depth_isGreatest_reads : ∃ c, (ofUnits 2 1).edited (do
      let _ ← addOp (.conditional .reset 1 1) [.bit 0, .qubit 0] none
      discard (addOp (.conditional .reset 1 1) [.bit 0, .qubit 1] none)) = .ok c ∧ c.WellFormed ∧
    IsGreatest {n | ∃ s, s <+ c.commands ∧ s.IsChain Shares ∧ s.length = n} 2 ∧
    ∀ path : List Vertex, path.IsChain c.graph.Precedes → path.countP c.holdsOp ≤ 2 := by
  refine exists_run fun c hc => ?_
  have hwell := wellFormed_edited hc
  have hdepth : c.depth = 2 := of_run hc (by decide +kernel)
  obtain ⟨hgreatest, hpath, _⟩ := depth_isGreatest hwell
  rw [hdepth] at hgreatest hpath
  exact ⟨hwell, hgreatest, hpath⟩

/-! # `Circuit.Blank` — circuits without operations -/

open SortedMap Option

variable {d : Circuit} {w : UnitId} {ends ends' : Ends} {k : NodeKind} {a : Unit} {s t : Side}

/-! ## The two sides of a unit -/

namespace Side

/-- Whether a qubit is created, or discarded, at an end. -/
def isMarked : Side → NodeKind → Bool
  | first => NodeKind.isCreate
  | last => NodeKind.isDiscard

/-- Whether a unit is created, or discarded. -/
def flag : Side → Circuit → UnitId → Except CircuitError Bool
  | first => isCreated
  | last => isDiscarded

end Side

lemma Side.flag_eq (s : Side) (c : Circuit) (u : UnitId) :
    s.flag c u = (do return s.isMarked (← c.graph.kind (s.vertex (← c.ends u)))) := by
  cases s <;> rfl

lemma Framed.flag_cases (h : c.Framed) (s : Side) (u : UnitId) :
    (c.endAt? s u = none ∧ s.flag c u = .error (.unitNotFound u)) ∨ (c.endAt? s u = some s.marked ∧ s.flag c u = .ok true) ∨
      (c.endAt? s u = some (s.plain u.kind.wire) ∧ s.flag c u = .ok false) := by
  rw [s.flag_eq]
  cases hu : c.boundary.get? u with
  | none =>
    rw [endAt?, Circuit.ends, hu]
    exact .inl ⟨rfl, rfl⟩
  | some ends =>
    obtain ⟨k, hk, hfits⟩ := h.exists_end s hu
    have hflag : (do return s.isMarked (← c.graph.kind (s.vertex (← c.ends u)))) = .ok (s.isMarked k) := by
      rw [ends_eq_ok.mpr hu]
      show (c.graph.kind (s.vertex ends) >>= _) = _
      rw [kind_eq_ok.mpr hk]
      rfl
    rw [endAt?_of_ends s hu, hk, hflag]
    rcases Side.fits_cases hfits with ⟨rfl, _⟩ | rfl
    · exact .inr (.inl ⟨rfl, by cases s <;> rfl⟩)
    · exact .inr (.inr ⟨rfl, by cases s <;> rfl⟩)

lemma Framed.hasUnit_eq (h : c.Framed) (s : Side) (u : UnitId) : c.hasUnit u = (c.endAt? s u).isSome := by
  unfold hasUnit SortedMap.contains
  cases hu : c.boundary.get? u with
  | none => rw [endAt?, hu]; rfl
  | some ends =>
    obtain ⟨k, hk, _⟩ := h.exists_end s hu
    rw [endAt?_of_ends s hu, hk]
    rfl

/-- **The same units, with the same flags.** -/
structure SameUnits (c d : Circuit) : Prop where
  units : ∀ u, d.hasUnit u = c.hasUnit u
  created : ∀ u, d.isCreated u = c.isCreated u
  discarded : ∀ u, d.isDiscarded u = c.isDiscarded u

lemma Framed.flag_eq_iff (hc : c.Framed) (hd : d.Framed) (s : Side) (u : UnitId) :
    s.flag d u = s.flag c u ↔ d.endAt? s u = c.endAt? s u := by
  have hne : s.marked ≠ s.plain u.kind.wire := by cases s <;> exact NodeKind.noConfusion
  rcases hc.flag_cases s u with ⟨hend, hflag⟩ | ⟨hend, hflag⟩ | ⟨hend, hflag⟩ <;>
    rcases hd.flag_cases s u with ⟨hend', hflag'⟩ | ⟨hend', hflag'⟩ | ⟨hend', hflag'⟩ <;>
    simp [hend, hflag, hend', hflag', hne, hne.symm]

lemma sameUnits_iff (hc : c.Framed) (hd : d.Framed) : c.SameUnits d ↔ ∀ s u, d.endAt? s u = c.endAt? s u := by
  have hflag := fun s u => hc.flag_eq_iff hd s u
  constructor
  · intro h s u
    rw [← hflag]
    cases s with
    | first => exact h.created u
    | last => exact h.discarded u
  · intro h
    refine ⟨fun u => ?_, fun u => (hflag .first u).mpr (h _ u), fun u => (hflag .last u).mpr (h _ u)⟩
    rw [hc.hasUnit_eq .first, hd.hasUnit_eq .first, h]

/-! ## Calls that make units -/

lemma addUnit_run (hu : c.hasUnit u = false) (hregister : c.Admits u) : addUnit u c = .ok () (c.insertUnit u) := by
  unfold addUnit
  rw [bind_get, if_neg (by rw [hu]; decide)]
  exact bind_ok (ask_of_ok (checkRegister_iff (a := ()).mpr hregister))

lemma Side.mark_run (h : c.Framed) (s : Side) (hqubit : u.kind = .qubit) (hu : c.boundary.get? u = some ends) :
    s.mark u c = .ok () { c with graph := c.graph.withKind (s.vertex ends) s.marked } := by
  obtain ⟨k, hk, _⟩ := h.exists_end s hu
  have hsteps : (do
      ask fun _ => checkKind u .qubit
      let ends ← ask (·.ends u)
      onGraph (setKind (s.vertex ends) s.marked) : Edit Unit) c =
        .ok () { c with graph := c.graph.withKind (s.vertex ends) s.marked } := by
    rw [bind_ok (ask_of_ok (checkKind_eq_ok (a := ()).mpr hqubit)), bind_ok (ask_of_ok (ends_eq_ok.mpr hu))]
    exact onGraph_of_ok (setKind_of_live (live_of_kind? hk))
  cases s <;> exact hsteps

/-! ## Blank circuits -/

/-- **The circuits that can be made without operations.** -/
inductive Blank : Circuit → Prop
  | empty (name : Option String) : Blank { name }
  | ofUnits (qubits bits : Nat) : Blank (ofUnits qubits bits)
  | addUnit {c c' : Circuit} {u : UnitId} {a : Unit} : Blank c → addUnit u c = .ok a c' → Blank c'
  | createQubit {c c' : Circuit} {u : UnitId} {a : Unit} : Blank c → createQubit u c = .ok a c' → Blank c'
  | discardQubit {c c' : Circuit} {u : UnitId} {a : Unit} : Blank c → discardQubit u c = .ok a c' → Blank c'

lemma Blank.mark (h : Blank c) (hrun : s.mark u c = .ok a c') : Blank c' := by
  cases s with
  | first => exact .createQubit h hrun
  | last => exact .discardQubit h hrun

lemma Blank.reachable (h : Blank c) : Reachable c := by
  induction h with
  | empty name => exact .empty name
  | ofUnits qubits bits => exact .ofUnits qubits bits
  | addUnit _ hrun ih => exact .addUnit ih hrun
  | createQubit _ hrun ih => exact .createQubit ih hrun
  | discardQubit _ hrun ih => exact .discardQubit ih hrun

lemma Blank.wellFormed (h : Blank c) : c.WellFormed := h.reachable.coherent.wellFormed

/-- **Nothing but ends of units**, and no opgroups. -/
structure Bare (c : Circuit) : Prop where
  sequenced : c.Sequenced
  opgroups : c.opgroups = .empty
  boundary : ∀ {v k}, c.graph.kind? v = some k → k.isBoundary = true

lemma Bare.insertUnit (h : c.Bare) (hvalid : c.graph.Valid) (u : UnitId) : (c.insertUnit u).Bare := by
  refine ⟨Graph.Sequenced.withVertex (Graph.Sequenced.withVertex h.sequenced), h.opgroups, fun {v k} hk => ?_⟩
  replace hk : (wiredGraph c.graph u).kind? v = some k := hk
  rw [kind?_wiredGraph hvalid] at hk
  split at hk
  · cases hk
    rfl
  · split at hk
    · cases hk
      rfl
    · exact h.boundary hk

lemma Bare.mark (h : c.Bare) (hrun : s.mark u c = .ok a c') : c'.Bare := by
  obtain ⟨_, _, _, rfl⟩ := Side.mark_eq_ok hrun
  refine ⟨Graph.Sequenced.withKind h.sequenced, h.opgroups, fun {w k} hk => ?_⟩
  rw [kind?_withKind] at hk
  split at hk
  · obtain ⟨_, _, rfl⟩ := map_eq_some_iff.mp hk
    exact s.isBoundary_marked
  · exact h.boundary hk

lemma Blank.bare (h : Blank c) : c.Bare := by
  have hempty : ∀ name : Option String, ({ name } : Circuit).Bare := fun name =>
    ⟨fun _ _ hn => (by cases hn), rfl, fun hk => (by cases hk)⟩
  induction h with
  | empty name => exact hempty name
  | ofUnits qubits bits =>
    unfold Circuit.ofUnits
    generalize (range qubits).map UnitId.qubit ++ (range bits).map UnitId.bit = us
    have hvalid : ({} : Circuit).graph.Valid := (wellFormed_empty rfl rfl).valid
    have hbare := hempty none
    generalize ({} : Circuit) = c at hvalid hbare
    induction us generalizing c with
    | nil => exact hbare
    | cons u rest ih => exact ih _ (valid_wiredGraph hvalid u) (hbare.insertUnit hvalid u)
  | addUnit hc hrun ih =>
    obtain ⟨_, rfl⟩ := addUnit_eq_ok hrun
    exact ih.insertUnit hc.wellFormed.valid _
  | createQubit _ hrun ih => exact ih.mark (s := .first) hrun
  | discardQubit _ hrun ih => exact ih.mark (s := .last) hrun

lemma Bare.commands_eq_nil (h : c.Bare) (hc : c.WellFormed) : c.commands = [] := by
  refine eq_nil_iff_forall_not_mem.mpr fun cmd hcmd => ?_
  obtain ⟨i, hi⟩ := getElem?_of_mem hcmd
  have hboundary := h.boundary (hc.wired.kind_command hi)
  cases hboundary

/-! ## A blank circuit with given units -/

lemma endAt?_insertUnit (h : c.WellFormed) (s : Side) (u w : UnitId) :
    (c.insertUnit u).endAt? s w = if w = u then some (s.plain u.kind.wire) else c.endAt? s w := by
  rw [insertUnit_eq, endAt?, get?_insert]
  by_cases hw : w = u
  · rw [if_pos hw, if_pos hw, bind_some]
    rw [kind?_wiredGraph h.valid]
    cases s with
    | first => exact if_pos rfl
    | last => exact (if_neg (newEnds_ne h.valid u).symm).trans (if_pos rfl)
  · rw [if_neg hw, if_neg hw, endAt?]
    cases hends : c.boundary.get? w with
    | none => rfl
    | some ends =>
      -- the ends of the other units are not new
      obtain ⟨k, hk, _⟩ := h.exists_end s hends
      show (wiredGraph c.graph u).kind? (s.vertex ends) = c.graph.kind? (s.vertex ends)
      rw [kind?_wiredGraph h.valid, if_neg, if_neg]
      · intro heq
        rw [heq, newEnds_output_new h.valid] at hk
        cases hk
      · intro heq
        rw [heq, newEnds_input_new h.valid] at hk
        cases hk

lemma WellFormed.vertex_eq_iff (h : c.WellFormed) (hu : c.boundary.get? u = some ends)
    (hw : c.boundary.get? w = some ends') : t.vertex ends' = s.vertex ends ↔ t = s ∧ w = u := by
  constructor
  · intro heq
    cases t <;> cases s
    · exact ⟨rfl, h.distinct hw hu (.inl heq)⟩
    · exact absurd ⟨u, ends, hu, heq.symm⟩ (h.not_isOutput ⟨w, ends', hw, rfl⟩)
    · exact absurd ⟨w, ends', hw, heq⟩ (h.not_isOutput ⟨u, ends, hu, rfl⟩)
    · exact ⟨rfl, h.distinct hw hu (.inr heq)⟩
  · rintro ⟨rfl, rfl⟩
    rw [mem_unique hw hu]

lemma endAt?_withKind (h : c.WellFormed) (hu : c.boundary.get? u = some ends) (s t : Side) (w : UnitId) :
    ({ c with graph := c.graph.withKind (s.vertex ends) k } : Circuit).endAt? t w =
      if t = s ∧ w = u then some k else c.endAt? t w := by
  unfold endAt?
  cases hw : c.boundary.get? w with
  | none =>
    rw [if_neg]
    · rfl
    · rintro ⟨_, rfl⟩
      rw [hu] at hw
      cases hw
  | some ends' =>
    obtain ⟨_, hk', _⟩ := h.exists_end t hw
    show (c.graph.withKind (s.vertex ends) k).kind? (t.vertex ends') = if _ then _ else c.graph.kind? (t.vertex ends')
    rw [kind?_withKind, hk']
    simp only [h.vertex_eq_iff hu hw, map_some]

lemma Blank.exists_mark (hd : Blank d) (hu : d.endAt? s u = some (s.plain u.kind.wire)) (hk : s.fits u k) :
    ∃ d', Blank d' ∧ ∀ t w, d'.endAt? t w = if t = s ∧ w = u then some k else d.endAt? t w := by
  rcases Side.fits_cases hk with ⟨rfl, hqubit⟩ | rfl
  · obtain ⟨_, hends, _⟩ := bind_eq_some_iff.mp hu
    have hrun := s.mark_run hd.wellFormed.toFramed hqubit hends
    exact ⟨_, hd.mark hrun, fun t w => endAt?_withKind hd.wellFormed hends s t w⟩
  · refine ⟨d, hd, fun t w => ?_⟩
    split
    · next heq => rw [heq.1, heq.2, hu]
    · rfl

/-- **Units of one register have the same kind and as many indices.** -/
def RegistersAgree (c : Circuit) : Prop :=
  ∀ u ∈ c.units, ∀ w ∈ c.units, u.register = w.register → u.kind = w.kind ∧ u.index.length = w.index.length

instance (c : Circuit) : Decidable c.RegistersAgree := inferInstanceAs (Decidable (∀ u ∈ c.units, ∀ w ∈ c.units, _))

lemma exists_blank_of_units (h : c.WellFormed) (hregisters : c.RegistersAgree) {us : List UnitId} (hnodup : us.Nodup)
    (hus : ∀ u ∈ us, u ∈ c.units) : ∃ d, Blank d ∧ ∀ s u, d.endAt? s u = if u ∈ us then c.endAt? s u else none := by
  induction us with
  | nil => exact ⟨_, .empty none, fun s u => by rw [if_neg not_mem_nil]; rfl⟩
  | cons u rest ih =>
    obtain ⟨hnew, hnodup⟩ := nodup_cons.mp hnodup
    obtain ⟨hu, hus⟩ := forall_mem_cons.mp hus
    obtain ⟨_, hends⟩ := mem_keys_iff.mp hu
    obtain ⟨d, hd, hrest⟩ := ih hnodup hus
    have hwell := hd.wellFormed
    have hmem : ∀ w, d.hasUnit w → w ∈ rest := by
      intro w hw
      rw [hwell.hasUnit_eq .first, hrest] at hw
      by_contra hnot
      rw [if_neg hnot] at hw
      cases hw
    -- the unit is added
    have hnone : d.hasUnit u = false := by
      by_contra htrue
      exact hnew (hmem u (by simpa using htrue))
    have hadd : addUnit u d = .ok () (d.insertUnit u) := by
      refine addUnit_run hnone fun w hw hsame => ?_
      have hw' := hus w (hmem w (contains_iff.mpr (mem_keys_iff.mp hw)))
      exact hregisters w hw' u hu hsame
    have hends1 := fun s => endAt?_insertUnit hwell s u
    -- and gets the ends that it has in `c`
    obtain ⟨k, hk, hfits⟩ := h.exists_end .first hends
    obtain ⟨_, hk', hfits'⟩ := h.exists_end .last hends
    obtain ⟨d2, hd2, hends2⟩ := (Blank.addUnit hd hadd).exists_mark ((hends1 .first u).trans (if_pos rfl)) hfits
    have hlast : d2.endAt? .last u = some (Side.last.plain u.kind.wire) := by
      rw [hends2, if_neg (fun heq => (by cases heq.1)), hends1, if_pos rfl]
    obtain ⟨d3, hd3, hends3⟩ := hd2.exists_mark hlast hfits'
    refine ⟨d3, hd3, fun s w => ?_⟩
    rw [hends3, hends2, hends1, hrest]
    by_cases hw : w = u
    · subst hw
      rw [if_pos mem_cons_self, endAt?_of_ends s hends]
      cases s with
      | first => simp [hk]
      | last => simp [hk']
    · simp [hw]

lemma exists_blank (h : c.WellFormed) (hregisters : c.RegistersAgree) : ∃ d, Blank d ∧ c.SameUnits d := by
  obtain ⟨d, hd, hends⟩ := exists_blank_of_units h hregisters (nodup_keys c.boundary) fun u hu => hu
  refine ⟨d, hd, (sameUnits_iff h.toFramed hd.wellFormed.toFramed).mpr fun s u => ?_⟩
  rw [hends]
  split
  · rfl
  · next hu =>
    have hnone : c.boundary.get? u = none := by
      cases hget : c.boundary.get? u with
      | none => rfl
      | some ends => exact absurd (mem_keys_iff.mpr ⟨ends, hget⟩) hu
    rw [endAt?, hnone]
    rfl

/-! # `Circuit.replay` -/

open SlotStore

variable {d₁ : Circuit} {unit : Pin → UnitId} {p : Pin} {k : WireKind} {op : Op} {args : List UnitId} {og : Option String}
  {i : ℕ} {cmd : Command} {done rest : List Command}

/-! ## Arguments of commands -/

namespace Wired

lemma unit_fits (h : c.Wired unit) (hp : c.graph.net.wireAt p = some k.carrier) :
    c.hasUnit (unit p) ∧ (unit p).kind = k.unitKind := by
  obtain ⟨ends, hends, hpath⟩ := h.onWire_unit hp (WireKind.isLinear_carrier k)
  refine ⟨SortedMap.contains_iff.mpr ⟨ends, hends⟩, ?_⟩
  have hwire := h.threaded.toFitted.wireAt_of_path hpath
  rw [Net.wireAt_of_single (h.signature_input hends), hp] at hwire
  have hkind := congrArg WireKind.unitKind (some.inj hwire)
  rw [WireKind.unitKind_wire] at hkind
  rw [hkind]
  cases k <;> rfl

lemma exists_link (h : c.Wired unit) (hcmd : c.commands[i]? = some cmd) {j : ℕ} {q : UnitId × WireKind}
    (hq : (cmd.args.zip cmd.op.signature)[j]? = some q) :
    ∃ l, c.graph.HasLink l ∧ l.target = ⟨cmd.vertex, j⟩ ∧ q = (unit l.source, l.kind) := by
  obtain ⟨harg, hport⟩ := getElem?_zip_eq_some.mp hq
  have hkind := h.kind_command hcmd
  have hwire : c.graph.net.wireAt ⟨cmd.vertex, j⟩ = some q.2 := by
    rw [Graph.wireAt_of_kind? hkind]
    exact hport
  obtain ⟨l, hl, ht⟩ := (h.complete.fed_iff hwire).mpr (h.not_isInput_of_op hkind)
  refine ⟨l, hl, ht, Prod.ext ?_ ?_⟩
  · have hunit := h.args_getElem? hcmd hl (by rw [ht])
    rw [ht, harg] at hunit
    exact some.inj hunit
  · have htarget := h.threaded.target_wire hl
    rw [ht, hwire] at htarget
    exact some.inj htarget

/-- **The arguments of a command pass the checks** of every circuit with the same units. -/
theorem checkArgs_command (h : c.Wired unit) (hcmd : c.commands[i]? = some cmd)
    (hunits : ∀ u, d.hasUnit u = c.hasUnit u) : d.checkArgs cmd.op cmd.args = .ok () := by
  refine checkArgs_of_fit (h.lists_commands.arity cmd (mem_of_getElem? hcmd)) (fun q hq => ?_) ?_
  · obtain ⟨j, hj⟩ := getElem?_of_mem hq
    obtain ⟨l, hl, _, rfl⟩ := h.exists_link hcmd hj
    rw [hunits]
    exact h.unit_fits (h.threaded.source_wire hl)
  · refine pairwise_iff_getElem.mpr fun m n hm hn hmn => ?_
    obtain ⟨a, ha, hat, heqa⟩ := h.exists_link hcmd (getElem?_eq_getElem hm)
    obtain ⟨b, hb, hbt, heqb⟩ := h.exists_link hcmd (getElem?_eq_getElem hn)
    rw [heqa, heqb]
    intro hlin
    refine h.unit_ne_of_target ha hb hlin (by rw [hat, hbt]) ?_
    rintro rfl
    have hindex := congrArg Pin.index (hat.symm.trans hbt)
    exact absurd hindex (by show m ≠ n; omega)

end Wired

/-! ## Opgroups -/

/-- **Vertices of one opgroup have the same signature.** -/
def OpgroupsAgree (c : Circuit) : Prop := ∀ p ∈ c.graph.vertices.entries, ∀ q ∈ c.graph.vertices.entries,
  p.2.opgroup ≠ none → p.2.opgroup = q.2.opgroup → p.2.kind.signature = q.2.kind.signature

instance (c : Circuit) : Decidable c.OpgroupsAgree := inferInstanceAs (Decidable (∀ p ∈ _, ∀ q ∈ _, _))

lemma OpgroupsAgree.signature_eq (h : c.OpgroupsAgree) (hc : c.Wired unit) {cmd cmd' : Command} {name : String}
    (hcmd : cmd ∈ c.commands) (hcmd' : cmd' ∈ c.commands) (hname : cmd.opgroup = some name)
    (hname' : cmd'.opgroup = some name) : cmd.op.signature = cmd'.op.signature := by
  obtain ⟨k, hn⟩ := hc.lists_commands.content cmd hcmd
  obtain ⟨_, hn'⟩ := hc.lists_commands.content cmd' hcmd'
  refine h _ (mem_of_get? hn) _ (mem_of_get? hn') ?_ (hname.trans hname'.symm)
  rw [hname]
  exact some_ne_none _

/-! ## Replaying -/

/-- Adds the operations of commands one after the other. -/
def replay (cmds : List Command) : Edit Unit := cmds.forM fun cmd => discard (addOp cmd.op cmd.args cmd.opgroup)

/-- **The state after some of the commands of `c` were replayed.** -/
structure Replayed (c : Circuit) (done : List Command) (d : Circuit) : Prop where
  reachable : Reachable d
  sequenced : d.Sequenced
  ends : ∀ s u, d.endAt? s u = c.endAt? s u
  contents : d.commands.map Command.content = done.map Command.content
  opgroups : ∀ name s, d.opgroups.get? name = some s → ∃ cmd ∈ done, cmd.opgroup = some name ∧ s = cmd.op.signature

lemma Replayed.start (h : c.Framed) (hd : Blank d) (hunits : c.SameUnits d) : c.Replayed [] d where
  reachable := hd.reachable
  sequenced := hd.bare.sequenced
  ends := (sameUnits_iff h hd.wellFormed.toFramed).mp hunits
  contents := by rw [hd.bare.commands_eq_nil hd.wellFormed]
  opgroups name s hs := by
    rw [hd.bare.opgroups] at hs
    cases hs

lemma Extends.endAt?_eq {unit' : Pin → UnitId} (h : c.Extends c' unit unit' op args og) (s : Side) (u : UnitId) :
    c'.endAt? s u = c.endAt? s u := by
  unfold endAt?
  rw [h.boundary]
  cases hu : c.boundary.get? u with
  | none => rfl
  | some ends =>
    obtain ⟨k, hk, _⟩ := h.wired.exists_end s hu
    exact h.kind?_old (Graph.live_of_kind? hk)

lemma Replayed.step (h : c.Wired unit) (hgroups : c.OpgroupsAgree) (hd : c.Replayed done d)
    (hcmds : c.commands = done ++ cmd :: rest) :
    ∃ v d', addOp cmd.op cmd.args cmd.opgroup d = .ok v d' ∧ c.Replayed (done ++ [cmd]) d' := by
  have hwell := hd.reachable.coherent.wellFormed
  have hcmd : c.commands[done.length]? = some cmd := by
    rw [hcmds, getElem?_append_right (le_refl _), Nat.sub_self]
    rfl
  have hargs : d.checkArgs cmd.op cmd.args = .ok () := by
    refine h.checkArgs_command hcmd fun u => ?_
    rw [hwell.hasUnit_eq .first, h.hasUnit_eq .first, hd.ends]
  have hsame : ∀ name s, cmd.opgroup = some name → d.opgroups.get? name = some s → s = cmd.op.signature := by
    intro name s hname hs
    obtain ⟨cmd', hcmd', hname', rfl⟩ := hd.opgroups name s hs
    have hmem : cmd' ∈ c.commands := by rw [hcmds]; exact mem_append_left _ hcmd'
    exact hgroups.signature_eq h hmem (mem_of_getElem? hcmd) hname' hname
  obtain ⟨g, _, hextends, hrun⟩ := addOp_extends hwell.wired hargs hsame
  refine ⟨_, _, hrun, .addOp hd.reachable hrun, addOp_sequenced _ _ _ _ _ _ hd.sequenced hrun,
    fun s u => (hextends.endAt?_eq s u).trans (hd.ends s u), ?_, fun name s hs => ?_⟩
  · rw [hextends.commands_eq hd.sequenced, map_append, map_append, hd.contents]
    rfl
  · replace hs := (get?_withOpgroup _ _).symm.trans hs
    split at hs
    · next hname => exact ⟨cmd, mem_append_right _ (mem_singleton_self cmd), hname, some.inj hs.symm⟩
    · obtain ⟨cmd', hcmd', hname⟩ := hd.opgroups name s hs
      exact ⟨cmd', mem_append_left _ hcmd', hname⟩

lemma Replayed.run (h : c.Wired unit) (hgroups : c.OpgroupsAgree) (hd : c.Replayed [] d) :
    ∃ c', replay c.commands d = .ok () c' ∧ c.Replayed c.commands c' := by
  refine forM_of_prefix (fun done d => c.Replayed done d) (fun done cmd rest d hdone hreplayed => ?_) hd
  obtain ⟨v, d', hadd, hnext⟩ := hreplayed.step h hgroups hdone
  exact ⟨d', discard_of_ok hadd, hnext⟩

/-- **The commands of a circuit build it again.** -/
theorem replay_commands (h : c.WellFormed) (hregisters : c.RegistersAgree) (hgroups : c.OpgroupsAgree) :
    (∃ d, Blank d ∧ c.SameUnits d) ∧ ∀ d, Blank d → c.SameUnits d → ∃ c', d.edited (replay c.commands) = .ok c' ∧
      c'.WellFormed ∧ (∃ ι, IsoVia ι c c') ∧ c'.commands.map Command.content = c.commands.map Command.content := by
  refine ⟨exists_blank h hregisters, fun d hd hunits => ?_⟩
  obtain ⟨c', hrun, hreplayed⟩ := (Replayed.start h.toFramed hd hunits).run h.wired hgroups
  obtain ⟨hwell, hlabelled⟩ := hreplayed.reachable.coherent
  refine ⟨c', edited_eq_ok.mpr ⟨(), hrun⟩, hwell, ?_, hreplayed.contents⟩
  have hagree : c.Agree c' := ⟨fun s u => (hreplayed.ends s u).symm, hreplayed.contents.symm⟩
  refine hagree.isoVia h hwell fun w n hn hb => ?_
  -- only operations are in opgroups
  cases hog : n.opgroup with
  | none => rfl
  | some name =>
    obtain ⟨o, ho, _⟩ := hlabelled w n hn name hog
    rw [ho] at hb
    cases hb

/-- A bit that is written, read and written again, by measurements of one opgroup, with a qubit that is created. -/
theorem replay_commands_measure : ∃ c d c', (ofUnits 2 1).edited (do
      createQubit (.qubit 1)
      let _ ← addOp .measure [.qubit 0, .bit 0] (some "m")
      let _ ← addOp (.conditional .reset 1 1) [.bit 0, .qubit 1] none
      discard (addOp .measure [.qubit 1, .bit 0] (some "m"))) = .ok c ∧ c.commands.length = 3 ∧
    c.RegistersAgree ∧ c.OpgroupsAgree ∧ Blank d ∧ c.SameUnits d ∧ d.edited (replay c.commands) = .ok c' ∧
    (∃ ι, IsoVia ι c c') ∧ c'.commands.map Command.content = c.commands.map Command.content := by
  simp only [exists_and_left]
  refine exists_run fun c hc => ?_
  have hregisters : c.RegistersAgree := of_run hc (by decide +kernel)
  have hgroups : c.OpgroupsAgree := of_run hc (by decide +kernel)
  have hwell := wellFormed_edited hc
  obtain ⟨⟨d, hd, hunits⟩, hreplay⟩ := replay_commands hwell hregisters hgroups
  obtain ⟨c', hrun', _, hiso, hcontents⟩ := hreplay d hd hunits
  exact ⟨of_run hc (by decide +kernel), hregisters, hgroups, d, hd, hunits, c', hrun', hiso, hcontents⟩

end Circuit

end Wireloom
