import Mathlib.Data.List.Pairwise
import Wireloom.Proofs.Build
import Wireloom.Proofs.Hole

/-!
# `Circuit.commands` — every operation once, on the units of its wires

The commands of a circuit are read off along a walk, with the names of units carried forward from pin to pin.
-/

namespace Wireloom

lemma le_of_compare_cons {a b : Nat} {s t : List Nat} (h : (compare (a :: s) (b :: t)).isLE) : a ≤ b := by
  rw [List.compare_cons_cons] at h
  by_contra hlt
  rw [Nat.compare_eq_gt.mpr (by omega)] at h
  cases h

lemma countP_lt_countP {α : Type} {p q : α → Bool} {l : List α} {a : α} (ha : a ∈ l)
    (hpq : ∀ x ∈ l, p x → q x) (hq : q a) (hp : p a = false) : l.countP p < l.countP q := by
  induction l with
  | nil => cases ha
  | cons x rest ih =>
    obtain ⟨hx, hrest⟩ := List.forall_mem_cons.mp hpq
    rw [List.countP_cons, List.countP_cons]
    rcases List.mem_cons.mp ha with rfl | ha
    · have hle := List.countP_mono_left hrest
      rw [hp, hq]
      simp only [Bool.false_eq_true, if_false, if_true]
      omega
    · have hlt := ih ha hrest
      by_cases hpx : p x
      · rw [if_pos hpx, if_pos (hx hpx)]
        omega
      · rw [if_neg hpx]
        omega

/-- What a command says: the operation, its units and its opgroup. -/
def Command.content (cmd : Command) : Op × List UnitId × Option String := (cmd.op, cmd.args, cmd.opgroup)

namespace Circuit

open Wireloom.Graph List Net SlotStore SortedMap Option

variable {c : Circuit} {unit : Pin → UnitId} {u : UnitId} {v : Vertex} {p : Pin} {l : Link} {e : Edge} {n : Node}
  {wires : Wires} {done todo : List Vertex} {links : List (Edge × Link)} {cmd : Command}

/-! ## The links into a vertex -/

namespace Wired

variable (h : c.Wired unit) (hn : c.graph.vertices.get? v = some n) (hv : ¬ c.IsInput v)

include h hn hv in
lemma inLinks_indices : (c.graph.inLinks v).map (fun p => p.2.target.index) = range n.kind.signature.length := by
  have hperm : (c.graph.inLinks v).Perm (c.graph.incoming v) := perm_sortedBy _ _
  have hrange := perm_incoming h.valid h.simple h.threaded.toFitted h.complete (kind?_of_get? hn) hv
  refine ((hperm.map _).trans hrange).eq_of_pairwise (fun a b _ _ hab hba => le_antisymm hab hba) ?_ pairwise_le_range
  refine pairwise_map.mpr ((pairwise_sortedBy _ _).imp ?_)
  intro a b hab
  exact le_of_compare_cons hab

include h hn hv in
lemma index_of_inLinks {i : Nat} (hi : (c.graph.inLinks v)[i]? = some (e, l)) : l.target.index = i := by
  have hplace := congrArg (·[i]?) (h.inLinks_indices hn hv)
  simp only [getElem?_map, hi, map_some] at hplace
  obtain ⟨_, hindex⟩ := List.getElem?_eq_some_iff.mp hplace.symm
  rw [← hindex, getElem_range]

include h hn hv in
lemma length_inLinks : (c.graph.inLinks v).length = n.kind.signature.length := by
  have hlength := congrArg length (h.inLinks_indices hn hv)
  rwa [length_map, length_range] at hlength

include h hn hv in
lemma units_getElem? (hl : c.graph.HasLink l) (ht : l.target.vertex = v) :
    ((c.graph.inLinks v).map fun p => unit p.2.source)[l.target.index]? = some (unit l.source) := by
  obtain ⟨e, he⟩ := hl
  obtain ⟨i, hi⟩ := getElem?_of_mem ((mem_inLinks h.valid).mpr ⟨he, ht⟩)
  rw [h.index_of_inLinks hn hv hi, getElem?_map, hi]
  rfl

include h hn hv in
lemma units_eq {us : List UnitId} (hlength : us.length = n.kind.signature.length)
    (hus : ∀ l, c.graph.HasLink l → l.target.vertex = v → us[l.target.index]? = some (unit l.source)) :
    (c.graph.inLinks v).map (fun p => unit p.2.source) = us := by
  refine ext_getElem? fun i => ?_
  rw [getElem?_map]
  cases hi : (c.graph.inLinks v)[i]? with
  | none =>
    have hle := getElem?_eq_none_iff.mp hi
    rw [h.length_inLinks hn hv, ← hlength] at hle
    exact (getElem?_eq_none hle).symm
  | some p =>
    obtain ⟨e, l⟩ := p
    obtain ⟨he, ht⟩ := (mem_inLinks h.valid).mp (mem_of_getElem? hi)
    rw [← h.index_of_inLinks hn hv hi, hus l ⟨e, he⟩ ht]
    rfl

end Wired

/-! ## Carrying names along -/

/-- The names at hand are those of the pins from which links start, at the inputs and at the vertices walked so far. -/
def Knows (c : Circuit) (unit : Pin → UnitId) (done : List Vertex) (wires : Wires) : Prop :=
  ∀ l, c.graph.HasLink l → l.source.vertex ∈ done ∨ c.IsInput l.source.vertex → wires.lookup l.source = some (unit l.source)

/-- **The links into a vertex carry all their names**, and the linear ones pass theirs on. -/
theorem carry_eq (hknown : ∀ p ∈ links, wires.lookup p.2.source = some (unit p.2.source))
    (hother : ∀ p ∈ links, p.2.source.vertex ≠ v) (hnodup : (links.map fun p => p.2.target.index).Nodup) :
    (carry v links wires).1 = links.map (fun p => unit p.2.source) ∧
      (∀ q, (∀ p ∈ links, q ≠ ⟨v, p.2.target.index⟩) → (carry v links wires).2.lookup q = wires.lookup q) ∧
      ∀ p ∈ links, p.2.kind.isLinear → (carry v links wires).2.lookup ⟨v, p.2.target.index⟩ = some (unit p.2.source) := by
  induction links generalizing wires with
  | nil => exact ⟨rfl, fun _ _ => rfl, by simp⟩
  | cons p rest ih =>
    obtain ⟨e, l⟩ := p
    obtain ⟨hl, hrest⟩ := forall_mem_cons.mp hknown
    obtain ⟨_, hother⟩ := forall_mem_cons.mp hother
    obtain ⟨hnew, hnodup⟩ := nodup_cons.mp hnodup
    let wires' : Wires := if l.kind.isLinear then (⟨v, l.target.index⟩, unit l.source) :: wires else wires
    have hkeep : ∀ q, q ≠ ⟨v, l.target.index⟩ → wires'.lookup q = wires.lookup q := by
      intro q hq
      simp only [wires']
      split
      · rw [lookup_cons, beq_false_of_ne hq]
      · rfl
    have hcarry : carry v ((e, l) :: rest) wires = (unit l.source :: (carry v rest wires').1, (carry v rest wires').2) := by
      simp only [carry, hl, wires']
    obtain ⟨hargs, hothers, hlinear⟩ := @ih wires' (fun p hp => by
        rw [hkeep _ fun heq => hother p hp (congrArg Pin.vertex heq)]
        exact hrest p hp)
      hother hnodup
    rw [hcarry]
    refine ⟨by rw [hargs]; rfl, ?_, ?_⟩
    · intro q hq
      obtain ⟨hql, hqrest⟩ := forall_mem_cons.mp hq
      rw [hothers q hqrest, hkeep q hql]
    · rw [forall_mem_cons]
      refine ⟨fun hlin => ?_, hlinear⟩
      rw [hothers]
      · simp only [wires', if_pos hlin]
        exact lookup_cons_self
      · intro p hp heq
        exact hnew (mem_map.mpr ⟨p, hp, (congrArg Pin.index heq).symm⟩)

/-- The command of a vertex whose pins are named by `unit`. -/
def commandAt (c : Circuit) (unit : Pin → UnitId) (v : Vertex) : Option Command :=
  match c.graph.vertices.get? v with
  | some ⟨.op op, opgroup, _⟩ => some ⟨op, (c.graph.inLinks v).map fun p => unit p.2.source, opgroup, v⟩
  | _ => none

namespace Wired

section

variable (h : c.Wired unit)
include h

lemma knows_start : c.Knows unit [] c.startWires := by
  rintro l hl (hdone | ⟨u, ends, hu, hv⟩)
  · cases hdone
  · have hpin := (pin_of_single (by rw [← hv]; exact h.signature_input hu) (h.threaded.source_wire hl)).1
    rw [hpin, ← hv, h.unit_input hu]
    refine lookup_of_mem ?_ ?_
    · unfold startWires
      rw [map_reverse, nodup_reverse, List.map_map]
      refine Nodup.map_on ?_ (nodup_keys c.boundary).of_map
      rintro ⟨u1, _⟩ h1 ⟨u2, _⟩ h2 heq
      have hu1 := get?_iff_mem.mpr h1
      have hu2 := get?_iff_mem.mpr h2
      have huu : u1 = u2 := by
        rw [← h.unit_input hu1, ← h.unit_input hu2]
        exact congrArg unit heq
      subst huu
      rw [mem_unique hu1 hu2]
    · exact mem_reverse.mpr (mem_map.mpr ⟨(u, ends), get?_iff_mem.mp hu, rfl⟩)

lemma knows_other (hknows : c.Knows unit done wires) (hv : ∀ o, c.graph.kind? v ≠ some (.op o))
    : c.Knows unit (done ++ [v]) wires := by
  intro l hl hsource
  apply hknows l hl
  rcases hsource with hsource | hsource
  · rcases mem_append.mp hsource with hsource | hsource
    · exact .inl hsource
    · have hlv : l.source.vertex = v := mem_singleton.mp hsource
      obtain ⟨k, hk⟩ := live_iff_kind?.mp (h.valid.source_live hl)
      have hboundary : k.isBoundary := by
        cases k with
        | op o => exact absurd (hlv ▸ hk) (hv o)
        | _ => rfl
      exact .inr ((h.only_ops hk hboundary).resolve_right (h.complete.source_open hl))
  · exact .inr hsource

lemma knows_op (hknows : c.Knows unit done wires) {o : Op} {og : Option String} {k : Nat}
    (hn : c.graph.vertices.get? v = some ⟨.op o, og, k⟩) (hbefore : ∀ w, c.graph.net.Before w v → w ∈ done) :
    (carry v (c.graph.inLinks v) wires).1 = (c.graph.inLinks v).map (fun p => unit p.2.source) ∧
      c.Knows unit (done ++ [v]) (carry v (c.graph.inLinks v) wires).2 := by
  have hkind : c.graph.kind? v = some (.op o) := kind?_of_get? hn
  have hv := h.not_isInput_of_op hkind
  have hin : ∀ p ∈ c.graph.inLinks v, c.graph.HasLink p.2 ∧ p.2.target.vertex = v := by
    rintro ⟨e, l⟩ hl
    obtain ⟨hget, ht⟩ := (mem_inLinks h.valid).mp hl
    exact ⟨⟨e, hget⟩, ht⟩
  have hloop : ∀ l, c.graph.HasLink l → l.source.vertex ≠ l.target.vertex := by
    obtain ⟨_, _, _, hrank⟩ := h.exists_rank
    exact hrank.climbs.no_loop
  have hnodup : ((c.graph.inLinks v).map fun p => p.2.target.index).Nodup := by
    rw [h.inLinks_indices hn hv]
    exact nodup_range
  have hknown : ∀ p ∈ c.graph.inLinks v, wires.lookup p.2.source = some (unit p.2.source) := fun p hp =>
    hknows p.2 (hin p hp).1 (.inl (hbefore _ ((hin p hp).2 ▸ .link (hin p hp).1)))
  obtain ⟨hargs, hothers, hlinear⟩ := carry_eq hknown (fun p hp => (hin p hp).2 ▸ hloop p.2 (hin p hp).1) hnodup
  refine ⟨hargs, fun l hl hsource => ?_⟩
  by_cases hlv : l.source.vertex = v
  · -- the pin has been fed by a link of the same wire
    obtain ⟨m, ⟨e, hm⟩, ht⟩ := (h.complete.fed_iff (h.threaded.source_wire hl)).mpr (hlv ▸ hv)
    have hlin := (h.linear_of_target hl ⟨e, hm⟩ ht).1
    have hmem := (mem_inLinks h.valid).mpr ⟨hm, by rw [ht, hlv]⟩
    have hpin : l.source = ⟨v, m.target.index⟩ := by rw [← hlv, ← ht]
    rw [hpin, hlinear (e, m) hmem hlin, h.threaded.same_unit ⟨e, hm⟩ hlin, ← hpin, ht]
  · rw [hothers _ fun p _ heq => hlv (congrArg Pin.vertex heq)]
    refine hknows l hl (hsource.imp_left fun hmem => ?_)
    rcases mem_append.mp hmem with hmem | hmem
    · exact hmem
    · exact absurd (mem_singleton.mp hmem) hlv

lemma commandsAlong_eq (hknows : c.Knows unit done wires)
    (hafter : ∀ xs v ys, todo = xs ++ v :: ys → ∀ w, c.graph.net.Before w v → w ∈ done ++ xs) :
    c.commandsAlong todo wires = todo.filterMap (c.commandAt unit) := by
  induction todo generalizing done wires with
  | nil => rfl
  | cons v rest ih =>
    have hbefore : ∀ w, c.graph.net.Before w v → w ∈ done := by
      intro w hw
      simpa using hafter [] v rest rfl w hw
    have hrest : ∀ xs w ys, rest = xs ++ w :: ys → ∀ x, c.graph.net.Before x w → x ∈ done ++ [v] ++ xs := by
      intro xs w ys hxs x hx
      simpa using hafter (v :: xs) w ys (by rw [hxs]; rfl) x hx
    have hskip : (∀ o, c.graph.kind? v ≠ some (.op o)) → c.commandsAlong rest wires = rest.filterMap (c.commandAt unit) :=
      fun hv => ih (h.knows_other hknows hv) hrest
    rw [commandsAlong, filterMap_cons, commandAt]
    cases hn : c.graph.vertices.get? v with
    | none => exact hskip fun o hk => by rw [kind?, hn] at hk; cases hk
    | some n =>
      obtain ⟨kind, _, k⟩ := n
      cases kind with
      | op o =>
        have hkind : c.graph.kind? v = some (.op o) := kind?_of_get? hn
        have hlength : (c.graph.inLinks v).length = o.signature.length :=
          h.length_inLinks hn (h.not_isInput_of_op hkind)
        obtain ⟨hargs, hknows'⟩ := h.knows_op hknows hn hbefore
        dsimp only
        rw [if_pos hlength, if_pos (by rw [hargs, length_map]; exact hlength), hargs, ih hknows' hrest]
      | _ => exact hskip fun o hk => by rw [kind?, hn] at hk; cases hk

/-- **The commands of a circuit** are those of its operations in the order of its walk. -/
theorem commands_eq : c.commands = c.graph.walk.filterMap (c.commandAt unit) :=
  h.commandsAlong_eq h.knows_start fun _ _ _ hwalk _ hw => walk_after h.valid h.threaded hwalk hw

/-! ## Tracing an edge back -/

/-- Tracing a link back takes one step for each link on the way, and fewer of them start at a lower rank. -/
lemma traceUnit_run {rank : Vertex → ℕ} (hrank : c.graph.net.Ranked rank) {n : Nat} (hl : c.graph.HasLink l)
    (hlt : c.graph.edges.entries.countP (fun p => rank p.2.source.vertex < rank l.source.vertex) < n) :
    c.traceUnit n l = .ok (unit l.source) := by
  induction n generalizing l with
  | zero => exact absurd hlt (Nat.not_lt_zero _)
  | succ n ih =>
    obtain ⟨k, hk⟩ := live_iff_kind?.mp (h.valid.source_live hl)
    rw [traceUnit, kind_eq_ok.mpr hk]
    show (if k.isStart then _ else _) = _
    split
    · next hstart =>
      obtain ⟨u, ends, hu, hv⟩ := (h.isStart_iff hk).mp hstart
      have hpin := (pin_of_single (by rw [← hv]; exact h.signature_input hu) (h.threaded.source_wire hl)).1
      have hsome : (c.unitStartingAt? l.source.vertex).isSome := by
        unfold unitStartingAt?
        rw [isSome_map, find?_isSome]
        exact ⟨(u, ends), get?_iff_mem.mp hu, by simpa using hv⟩
      obtain ⟨_, hu'⟩ := isSome_iff_exists.mp hsome
      obtain ⟨⟨_, ends'⟩, hfind, rfl⟩ := map_eq_some_iff.mp hu'
      have hget := get?_iff_mem.mpr (mem_of_find?_eq_some hfind)
      have hv' : ends'.input = l.source.vertex := by simpa using find?_some hfind
      rw [hu', hpin, ← hv', h.unit_input hget]
    · next hstart =>
      have hv : ¬ c.IsInput l.source.vertex := fun hv => hstart ((h.isStart_iff hk).mpr hv)
      obtain ⟨m, hm, ht⟩ := (h.complete.fed_iff (h.threaded.source_wire hl)).mpr hv
      obtain ⟨e, hlink, hget⟩ := linkIn_of_unique h.valid hm h.threaded.in_unique
      have hlin := (h.linear_of_target hl hm ht).1
      have hclimb : rank m.source.vertex < rank l.source.vertex := by
        rw [← ht]
        exact hrank.link hm
      rw [← ht, hlink]
      rw [← h.threaded.same_unit hm hlin]
      refine ih hm (Nat.lt_of_lt_of_le ?_ (Nat.le_of_lt_succ hlt))
      -- the link before is counted for `l` and not for itself
      exact countP_lt_countP (mem_of_get? hget) (fun p _ hp => by simp at hp ⊢; omega) (by simpa using hclimb) (by simp)

lemma edgeUnit_run (he : c.graph.edges.get? e = some l) : c.edgeUnit e = .ok (unit l.source) := by
  obtain ⟨_, _, _, hrank⟩ := h.exists_rank
  unfold edgeUnit
  rw [link_eq_ok.mpr he]
  refine h.traceUnit_run hrank ⟨e, he⟩ ?_
  exact countP_lt_length_iff.mpr ⟨(e, l), mem_of_get? he, by simp⟩

end

end Wired

/-! ## The listing -/

/-- Whether an operation stands at the vertex. -/
def holdsOp (c : Circuit) (v : Vertex) : Bool := (c.graph.vertices.get? v).any fun n => n.kind.op?.isSome

/-- **The commands list the operations of a circuit.**
    * Their vertices are those vertices of the order that hold operations, in this order, each once, and as many as
      there are operations wired in. A command has the operation and the opgroup of its vertex.
    * The argument at a port is the unit to which tracing the edge into the port leads.
    * A command that reads a bit stands before the command that writes the bit next: the one to which the wire leads
      on from the pin that is read. -/
structure Lists (c : Circuit) (order : List Vertex) (cmds : List Command) : Prop where
  vertices : cmds.map Command.vertex = order.filter c.holdsOp
  nodup : (cmds.map Command.vertex).Nodup
  length : cmds.length = c.opCount
  content : ∀ cmd ∈ cmds, ∃ k, c.graph.vertices.get? cmd.vertex = some ⟨.op cmd.op, cmd.opgroup, k⟩
  arity : ∀ cmd ∈ cmds, cmd.args.length = cmd.op.signature.length
  args : ∀ cmd ∈ cmds, ∀ i u, cmd.args[i]? = some u → ∃ e l, c.graph.linkIn ⟨cmd.vertex, i⟩ = .ok (e, l) ∧ c.edgeUnit e = .ok u
  reads_first : ∀ xs cmd ys, cmds = xs ++ cmd :: ys → ∀ read write, c.graph.HasLink read → c.graph.HasLink write →
    read.kind = .boolean → write.kind.isLinear = true → read.source = write.source → write.target.vertex = cmd.vertex →
    ∃ reader ∈ xs, reader.vertex = read.target.vertex

lemma of_commandAt (hcmd : c.commandAt unit v = some cmd) :
    cmd.vertex = v ∧ cmd.args = (c.graph.inLinks v).map (fun p => unit p.2.source) ∧
      ∃ k, c.graph.vertices.get? v = some ⟨.op cmd.op, cmd.opgroup, k⟩ := by
  unfold commandAt at hcmd
  split at hcmd
  · next k hn =>
    cases hcmd
    exact ⟨rfl, rfl, k, hn⟩
  · cases hcmd

lemma exists_commandAt (unit : Pin → UnitId) {op : Op} (hk : c.graph.kind? v = some (.op op)) : ∃ cmd, c.commandAt unit v = some cmd := by
  obtain ⟨⟨_, _, _⟩, hn, rfl⟩ := map_eq_some_iff.mp hk
  exact ⟨_, by unfold commandAt; rw [hn]⟩

lemma isSome_commandAt : (c.commandAt unit v).isSome = c.holdsOp v := by
  unfold commandAt holdsOp
  cases c.graph.vertices.get? v with
  | none => rfl
  | some n =>
    obtain ⟨kind, _, k⟩ := n
    cases kind <;> rfl

lemma map_vertex_commandAt : (c.commandAt unit v).map Command.vertex = guard (fun v => c.holdsOp v) v := by
  have hsome : (c.commandAt unit v).isSome = c.holdsOp v := isSome_commandAt
  show _ = if c.holdsOp v then some v else none
  rw [← hsome]
  cases hcmd : c.commandAt unit v with
  | none => rfl
  | some cmd => exact congrArg some (of_commandAt hcmd).1

lemma exists_command_before {walk : List Vertex} {xs ys : List Command}
    (hcmds : walk.filterMap (c.commandAt unit) = xs ++ cmd :: ys)
    (hfirst : ∀ done rest, walk = done ++ cmd.vertex :: rest → v ∈ done) (hv : c.holdsOp v) :
    ∃ first ∈ xs, first.vertex = v := by
  rw [filterMap_eq_append_iff] at hcmds
  obtain ⟨earlier, _, rfl, rfl, hlater⟩ := hcmds
  obtain ⟨skipped, w, rest, rfl, hskipped, hw, _⟩ := filterMap_eq_cons_iff.mp hlater
  obtain ⟨rfl, _⟩ := of_commandAt hw
  obtain ⟨first, hsome⟩ := isSome_iff_exists.mp (isSome_commandAt.trans hv)
  refine ⟨first, mem_filterMap.mpr ⟨v, ?_, hsome⟩, (of_commandAt hsome).1⟩
  rcases mem_append.mp (hfirst (earlier ++ skipped) rest (append_assoc ..).symm) with hmem | hmem
  · exact hmem
  · rw [hskipped _ hmem] at hsome
    cases hsome

namespace Wired

section

variable (h : c.Wired unit)
include h

lemma holdsOp_of_read (hl : c.graph.HasLink l) (hbool : l.kind = .boolean) : c.holdsOp l.target.vertex := by
  obtain ⟨n, hn⟩ := live_iff.mp (h.valid.target_live hl)
  have hkind : c.graph.kind? l.target.vertex = some n.kind := kind?_of_get? hn
  have hnot : ¬ n.kind.isBoundary := by
    intro hboundary
    have hsingle : ∃ u : UnitId, c.graph.net.signature? l.target.vertex = some [u.kind.wire] := by
      rcases h.only_ops hkind hboundary with ⟨u, ends, hu, hv⟩ | ⟨u, ends, hu, hv⟩
      · exact ⟨u, hv ▸ h.signature_input hu⟩
      · exact ⟨u, hv ▸ h.signature_output hu⟩
    obtain ⟨u, hu⟩ := hsingle
    have hwire := (pin_of_single hu (h.threaded.target_wire hl)).2
    have hlin := WireKind.isLinear_wire u.kind
    rw [← hwire, hbool] at hlin
    cases hlin
  unfold holdsOp
  rw [hn]
  obtain ⟨kind, _, k⟩ := n
  cases kind with
  | op o => rfl
  | _ => exact absurd rfl hnot

lemma isWired_iff (hn : c.graph.vertices.get? v = some n) : c.isWired v n = c.holdsOp v := by
  unfold isWired holdsOp
  rw [hn]
  obtain ⟨kind, _, k⟩ := n
  cases kind with
  | op o =>
    have hkind : c.graph.kind? v = some (.op o) := kind?_of_get? hn
    have hlength := h.length_inLinks hn (h.not_isInput_of_op hkind)
    have hsame : (c.graph.inLinks v).length = (c.graph.incoming v).length := length_sortedBy _ _
    exact decide_eq_true (hsame.symm.trans hlength)
  | _ => rfl

lemma countP_holdsOp : c.graph.walk.countP c.holdsOp = c.opCount := by
  have hperm := (walk_perm h.valid h.threaded h.acyclic).trans ((perm_sortedBy _ _).map _)
  rw [hperm.countP_eq, countP_map]
  refine countP_congr fun p hp => ?_
  rw [h.isWired_iff ((get?_eq_some_iff h.valid.vertices).mpr hp)]
  rfl

lemma mem_walk : v ∈ c.graph.walk ↔ c.graph.Live v :=
  (walk_perm h.valid h.threaded h.acyclic).mem_iff.trans (mem_map_bySequence h.valid)

lemma args_eq {o : Op} {og : Option String} {k i : Nat} (hn : c.graph.vertices.get? v = some ⟨.op o, og, k⟩)
    (hu : ((c.graph.inLinks v).map fun p => unit p.2.source)[i]? = some u) :
    ∃ e l, c.graph.linkIn ⟨v, i⟩ = .ok (e, l) ∧ c.edgeUnit e = .ok u := by
  have hkind : c.graph.kind? v = some (.op o) := kind?_of_get? hn
  rw [getElem?_map] at hu
  obtain ⟨⟨e, l⟩, hget, rfl⟩ := map_eq_some_iff.mp hu
  have hindex : l.target.index = i := h.index_of_inLinks hn (h.not_isInput_of_op hkind) hget
  obtain ⟨hedge, hv⟩ := (mem_inLinks h.valid).mp (mem_of_getElem? hget)
  obtain ⟨e', hlink, hedge'⟩ :=
    linkIn_of_unique h.valid ⟨e, hedge⟩ h.threaded.in_unique
  rw [show l.target = ⟨v, i⟩ from Pin.ext hv hindex] at hlink
  exact ⟨e', l, hlink, h.edgeUnit_run hedge'⟩

lemma map_vertex_commands : c.commands.map Command.vertex = c.graph.walk.filter c.holdsOp := by
  rw [h.commands_eq, map_filterMap, ← filterMap_eq_filter]
  exact congrArg (filterMap · c.graph.walk) (funext fun v => map_vertex_commandAt)

lemma mem_commands {cmd : Command} : cmd ∈ c.commands ↔ c.commandAt unit cmd.vertex = some cmd := by
  rw [h.commands_eq, mem_filterMap]
  constructor
  · rintro ⟨v, _, hv⟩
    rwa [(of_commandAt hv).1]
  · intro hcmd
    obtain ⟨_, _, k, hn⟩ := of_commandAt hcmd
    exact ⟨cmd.vertex, h.mem_walk.mpr (live_of_get? hn), hcmd⟩

lemma lists_commands : c.Lists c.graph.walk c.commands where
  vertices := h.map_vertex_commands
  nodup := by
    rw [h.map_vertex_commands]
    exact (nodup_walk h.valid).filter _
  length := by
    rw [h.commands_eq, length_filterMap_eq_countP, ← h.countP_holdsOp]
    exact countP_congr fun v _ => by rw [isSome_commandAt]
  content cmd hcmd := by
    obtain ⟨_, _, hn⟩ := of_commandAt (h.mem_commands.mp hcmd)
    exact hn
  arity cmd hcmd := by
    obtain ⟨_, hargs, k, hn⟩ := of_commandAt (h.mem_commands.mp hcmd)
    rw [hargs, length_map]
    exact h.length_inLinks hn (h.not_isInput_of_op (kind?_of_get? hn))
  args cmd hcmd i u hu := by
    obtain ⟨_, hargs, k, hn⟩ := of_commandAt (h.mem_commands.mp hcmd)
    rw [hargs] at hu
    exact h.args_eq hn hu
  reads_first xs cmd ys hcmds read write hread hwrite hbool hlin hsource htarget := by
    rw [h.commands_eq] at hcmds
    have hbefore : c.graph.net.Before read.target.vertex cmd.vertex :=
      htarget ▸ .hazard hread hwrite hbool hlin hsource
    exact exists_command_before hcmds (fun _ _ hwalk => walk_after h.valid h.threaded hwalk hbefore)
      (h.holdsOp_of_read hread hbool)

end

end Wired

/-! # `Circuit.addOp` — a new operation is the last command -/

variable {c' c₁ : Circuit} {unit' : Pin → UnitId} {w x : Vertex} {op : Op} {args : List UnitId} {og : Option String}
  {m : Link} {pins : List (UnitId × WireKind)}

/-- The vertices of a circuit are in the order in which they were made. -/
def Sequenced (c : Circuit) : Prop := c.graph.Sequenced

/-- The graph of the circuit has the property. -/
def OnGraph (P : Graph → Prop) (c : Circuit) : Prop := P c.graph

lemma onGraph_lasts {P : Graph → Prop} {α : Type} {edit : Graph.Edit α} (h : Keeps P edit) :
    Keeps (OnGraph P) (onGraph edit) := by
  intro c a c' hc hrun
  obtain ⟨g, hedit, rfl⟩ := onGraph_eq_ok.mp hrun
  exact h _ _ _ hc hedit

section Lasting

variable {P : Graph → Prop} (hP : Graph.Lasting P)
include hP

lemma addOp_lasts (op : Op) (args : List UnitId) (og : Option String) : Keeps (OnGraph P) (addOp op args og) := by
  have hjoin : Keeps (OnGraph P) (joinOpgroup op og) := by
    intro c _ c' h hrun
    cases (joinOpgroup_eq_ok hrun).2
    exact h
  refine ask_keeps.bind fun _ => hjoin.bind fun _ => (onGraph_lasts (addVertex_lasts hP)).bind fun v => ?_
  refine Keeps.bind (Keeps.forM fun x _ => ?_) fun _ => Keeps.pure _
  exact wirePin_of_keeps (fun l => onGraph_lasts (addLink_prunes hP.prunable l))
    (fun e => onGraph_lasts (removeEdge_prunes hP.prunable e)) _ _ _

end Lasting

lemma addOp_sequenced (op : Op) (args : List UnitId) (og : Option String) : Keeps Sequenced (addOp op args og) :=
  addOp_lasts lasting_sequenced op args og

/-! ## Vertices that are no outputs -/

/-- Whether no wire ends at a vertex. -/
def isInner (c : Circuit) (v : Vertex) : Bool := !(c.graph.kind? v).any NodeKind.isEnd

lemma Framed.isInner_iff (h : c.Framed) : c.isInner v ↔ ¬ c.IsOutput v := by
  unfold isInner
  cases hk : c.graph.kind? v with
  | none =>
    refine iff_of_true rfl ?_
    rintro ⟨u, _, hu, rfl⟩
    obtain ⟨k, hk', _⟩ := h.stops hu
    rw [hk] at hk'
    cases hk'
  | some k =>
    rw [← h.isEnd_iff hk]
    simp

lemma Wired.commands_filter (h : c.Wired unit) {keep : Vertex → Bool}
    (hkeep : ∀ w, c.graph.Live w → ¬ c.IsOutput w → keep w) : c.commands = (c.graph.walk.filter keep).filterMap (c.commandAt unit) := by
  rw [h.commands_eq, filterMap_filter]
  refine congrArg (filterMap · c.graph.walk) (funext fun w => ?_)
  cases hcmd : c.commandAt unit w with
  | none => simp
  | some cmd =>
    obtain ⟨_, _, k, hn⟩ := of_commandAt hcmd
    have hkind : c.graph.kind? w = some (.op cmd.op) := kind?_of_get? hn
    have hout : ¬ c.IsOutput w := by
      intro hout
      have hend := (h.isEnd_iff hkind).mpr hout
      cases hend
    rw [if_pos (hkeep w (live_of_kind? hkind) hout)]

/-! ## One operation more -/

/-- **`c'` is `c` with one operation at the end of its wires.** The rest keeps its content, its names and its links but
    for those to the outputs of units that the operation writes, and the new vertex comes before outputs only. -/
structure Extends (c c' : Circuit) (unit unit' : Pin → UnitId) (op : Op) (args : List UnitId) (og : Option String) :
    Prop where
  wired : c.Wired unit
  wired' : c'.Wired unit'
  vertices : c'.graph.vertices = (c.graph.withVertex (.op op) og).vertices
  boundary : c'.boundary = c.boundary
  links : ∀ {m}, m.target.vertex ≠ c.graph.vertices.nextHandle → ¬ c.IsOutput m.target.vertex →
    (c'.graph.HasLink m ↔ c.graph.HasLink m)
  names : ∀ {p}, p.vertex ≠ c.graph.vertices.nextHandle → unit' p = unit p
  enters : ∀ {i u k ends l}, (args.zip op.signature)[i]? = some (u, k) → c.boundary.get? u = some ends →
    c.graph.HasLink l → l.target = ⟨ends.output, 0⟩ → c'.graph.HasLink ⟨l.source, ⟨c.graph.vertices.nextHandle, i⟩, k⟩
  leaves : ∀ {i u k ends}, (args.zip op.signature)[i]? = some (u, k) → k.isLinear = true →
    c.boundary.get? u = some ends → c'.graph.HasLink ⟨⟨c.graph.vertices.nextHandle, i⟩, ⟨ends.output, 0⟩, k⟩
  passes : ∀ {u ends l}, (∀ p ∈ args.zip op.signature, p.2.isLinear = true → p.1 ≠ u) → c.boundary.get? u = some ends →
    c.graph.HasLink l → l.target = ⟨ends.output, 0⟩ → c'.graph.HasLink l
  last : ∀ {w}, c'.graph.net.Before c.graph.vertices.nextHandle w → c.IsOutput w
  arity : args.length = op.signature.length
  args : ∀ {m}, c'.graph.HasLink m → m.target.vertex = c.graph.vertices.nextHandle →
    args[m.target.index]? = some (unit' m.source)

lemma Placing.exists_arg {rank : Vertex → ℕ ×ₗ ℕ} {done : List (UnitId × WireKind)} (h : c.Placing unit rank v done)
    (hm : c.graph.HasLink m) (hv : m.target.vertex = v) :
    ∃ p, done[m.target.index]? = some p ∧ p.1 = unit m.source := by
  by_cases hlin : m.kind.isLinear
  · have hwire := h.threaded.target_wire hm
    rw [Net.wireAt_of_signature? (if_pos hv), getElem?_map] at hwire
    obtain ⟨p, hp, _⟩ := Option.map_eq_some_iff.mp hwire
    refine ⟨p, hp, ?_⟩
    rw [← h.named hp, h.threaded.same_unit hm hlin, ← hv]
  · exact h.reads hm (WireKind.eq_boolean hlin) hv

lemma addOp_extends (h : c.Wired unit) (hargs : c.checkArgs op args = .ok ()) (hjoins : c.Joins op og) :
    ∃ g unit', c.Extends { c with graph := g, opgroups := withOpgroup c.opgroups op og } unit unit' op args og ∧
      addOp op args og c = .ok c.graph.vertices.nextHandle { c with graph := g, opgroups := withOpgroup c.opgroups op og } := by
  obtain ⟨g, unit', rank, hrun, hplacing, hspares, hwired, hnames⟩ := addOp_run h hargs hjoins
  refine ⟨g, unit', ⟨h, hwired, hspares.vertices, rfl, fun hv hout => hspares.links hv hout, hnames _, hspares.enters,
    hspares.leaves, hspares.passes, fun {w} hvw => ?_, (checkArgs_eq_ok hargs).1, fun {m} hm hv => ?_⟩, hrun⟩
  · -- all but the outputs have a lower rank
    have hranked : g.net.Ranked rank := hplacing.ranked.mono fun _ hl => hl
    have hlt := hranked _ _ hvw
    by_contra hout
    by_cases hw : w = c.graph.vertices.nextHandle
    · rw [hw] at hlt
      exact lt_irrefl _ hlt
    · exact lt_asymm hlt (hplacing.rank_others hw hout)
  · obtain ⟨p, hp, hunit⟩ := hplacing.exists_arg hm hv
    rw [← hunit]
    exact (getElem?_zip_eq_some.mp hp).1

namespace Extends

variable (h : c.Extends c' unit unit' op args og)
include h

lemma valid : c.graph.Valid := h.wired.valid

lemma ne_new (hw : c.graph.Live w) : w ≠ c.graph.vertices.nextHandle := by
  rintro rfl
  exact not_live_nextHandle h.valid hw

lemma get?_new : c'.graph.vertices.get? c.graph.vertices.nextHandle = some ⟨.op op, og, c.graph.nextSequence⟩ := by
  rw [h.vertices]
  exact get?_insert_same _ _

lemma get?_old (hw : c.graph.Live w) : c'.graph.vertices.get? w = c.graph.vertices.get? w := by
  rw [h.vertices]
  exact get?_insert_other _ (h.ne_new hw) _

lemma kind?_old (hw : c.graph.Live w) : c'.graph.kind? w = c.graph.kind? w := by
  rw [kind?, kind?, h.get?_old hw]

lemma isInput_iff : c'.IsInput w ↔ c.IsInput w := by
  unfold IsInput
  rw [h.boundary]

lemma isOutput_iff : c'.IsOutput w ↔ c.IsOutput w := by
  unfold IsOutput
  rw [h.boundary]

lemma not_isOutput_new : ¬ c.IsOutput c.graph.vertices.nextHandle := by
  rintro ⟨u, _, hu, hv⟩
  exact h.ne_new (h.wired.live_output hu) hv

lemma before_iff (hw : c.graph.Live w) (hout : ¬ c.IsOutput w) : c'.graph.net.Before x w ↔ c.graph.net.Before x w := by
  have hne := h.ne_new hw
  constructor
  · intro hxw
    have hx : x ≠ c.graph.vertices.nextHandle := fun heq => hout (h.last (heq ▸ hxw))
    have hxout := h.wired'.not_isOutput_of_before hxw
    rw [h.isOutput_iff] at hxout
    cases hxw with
    | link hl => exact .link ((h.links hne hout).mp hl)
    | hazard ha hb hak hbl heq => exact .hazard ((h.links hx hxout).mp ha) ((h.links hne hout).mp hb) hak hbl heq
  · intro hxw
    have hxout := h.wired.not_isOutput_of_before hxw
    cases hxw with
    | link hl => exact .link ((h.links hne hout).mpr hl)
    | @hazard a b ha hb hak hbl heq =>
      have hx := h.ne_new (h.valid.target_live ha)
      exact .hazard ((h.links hx hxout).mpr ha) ((h.links hne hout).mpr hb) hak hbl heq

/-! ## The walk -/

lemma filter_walk (hseq : c.Sequenced) :
    c'.graph.walk.filter c.isInner = c.graph.walk.filter c.isInner ++ [c.graph.vertices.nextHandle] := by
  have hbefore := fun {x w} => mem_pairs_iff (v := x) (w := w) h.valid h.wired.threaded
  have hbefore' := fun {x w} => mem_pairs_iff (v := x) (w := w) h.wired'.valid h.wired'.threaded
  have hlist : c'.graph.bySequence.map Prod.fst = c.graph.bySequence.map Prod.fst ++ [c.graph.vertices.nextHandle] := by
    have hsame : c'.graph.bySequence = (c.graph.withVertex (.op op) og).bySequence := by
      unfold bySequence
      rw [h.vertices]
    rw [hsame, bySequence_withVertex h.valid hseq, map_append]
    rfl
  have hnew := h.wired.isInner_iff.mpr h.not_isOutput_new
  obtain ⟨_, _, _, hrank⟩ := h.wired'.exists_rank
  -- nothing comes after an output, so the walks can be cut down to the other vertices
  unfold walk walkBy
  rw [filter_walkFor (fun x w hxw _ => ?_) le_rfl le_rfl, filter_walkFor (fun x w hxw _ => ?_) le_rfl le_rfl,
    hlist, filter_append, filter_cons_of_pos hnew, filter_nil,
    walkFor_concat (fun x w hxw => hrank x w (hbefore'.mp hxw)) ?_, walkFor_congr fun x _ w hw => ?_]
  · obtain ⟨hmem, hout⟩ := mem_filter.mp hw
    rw [hbefore, hbefore']
    exact h.before_iff ((mem_map_bySequence h.valid).mp hmem) (h.wired.isInner_iff.mp hout)
  · intro w hw hvw
    exact h.wired.isInner_iff.mp (mem_filter.mp hw).2 (h.last (hbefore'.mp hvw))
  · exact h.wired.isInner_iff.mpr (h.wired.not_isOutput_of_before (hbefore.mp hxw))
  · have hout := h.wired'.not_isOutput_of_before (hbefore'.mp hxw)
    rw [h.isOutput_iff] at hout
    exact h.wired.isInner_iff.mpr hout

/-! ## The commands -/

lemma commandAt_new : c'.commandAt unit' c.graph.vertices.nextHandle = some ⟨op, args, og, c.graph.vertices.nextHandle⟩ := by
  have hkind : c'.graph.kind? c.graph.vertices.nextHandle = some (.op op) := by rw [kind?, h.get?_new]; rfl
  have hunits := h.wired'.units_eq h.get?_new (h.wired'.not_isInput_of_op hkind) h.arity fun m hm hv => h.args hm hv
  unfold commandAt
  rw [h.get?_new]
  rw [hunits]

lemma commandAt_old (hw : c.graph.Live w) (hout : ¬ c.IsOutput w) : c'.commandAt unit' w = c.commandAt unit w := by
  unfold commandAt
  rw [h.get?_old hw]
  cases hn : c.graph.vertices.get? w with
  | none => rfl
  | some n =>
    obtain ⟨kind, _, k⟩ := n
    cases kind with
    | op o =>
      have hkind : c.graph.kind? w = some (.op o) := kind?_of_get? hn
      have hin := h.wired.not_isInput_of_op hkind
      have hunits : (c'.graph.inLinks w).map (fun p => unit' p.2.source) =
          (c.graph.inLinks w).map fun p => unit p.2.source := by
        refine h.wired'.units_eq ((h.get?_old hw).trans hn) (fun hw' => hin (h.isInput_iff.mp hw')) ?_ ?_
        · rw [length_map, h.wired.length_inLinks hn hin]
        · intro m hm hv
          have hm' := (h.links (by rw [hv]; exact h.ne_new hw) (by rw [hv]; exact hout)).mp hm
          rw [h.names (h.ne_new (h.valid.source_live hm'))]
          exact h.wired.units_getElem? hn hin hm' hv
      rw [hunits]
    | _ => rfl

lemma commands_eq (hseq : c.Sequenced) : c'.commands = c.commands ++ [⟨op, args, og, c.graph.vertices.nextHandle⟩] := by
  have hkeep : ∀ w, ¬ c.IsOutput w → c.isInner w := fun w hw => h.wired.isInner_iff.mpr hw
  rw [h.wired'.commands_filter fun w _ hw => hkeep w fun hw' => hw (h.isOutput_iff.mpr hw'),
    h.wired.commands_filter fun w _ hw => hkeep w hw, h.filter_walk hseq, filterMap_append, filterMap_cons_some h.commandAt_new]
  refine congrArg (· ++ _) (filterMap_congr fun w hw => ?_)
  obtain ⟨hwalk, hinner⟩ := mem_filter.mp hw
  have hlive := h.wired.mem_walk.mp hwalk
  exact h.commandAt_old hlive (h.wired.isInner_iff.mp hinner)

end Extends

/-! ## What an operation needs -/

lemma checkEach_of_fit {taken : List UnitId} (hfit : ∀ p ∈ pins, c.hasUnit p.1 ∧ p.1.kind = p.2.unitKind)
    (htaken : ∀ p ∈ pins, p.2.isLinear → p.1 ∉ taken) (hapart : pins.Pairwise Apart) :
    checkEach c pins taken = .ok () := by
  induction pins generalizing taken with
  | nil => rfl
  | cons p rest ih =>
    obtain ⟨u, k⟩ := p
    obtain ⟨⟨hunit, hkind⟩, hfit⟩ := forall_mem_cons.mp hfit
    obtain ⟨hfree, htaken⟩ := forall_mem_cons.mp htaken
    obtain ⟨hfirst, hapart⟩ := pairwise_cons.mp hapart
    rw [checkEach, if_neg (by rw [hunit]; decide), if_neg (not_not.mpr hkind)]
    by_cases hlin : k.isLinear
    · rw [if_pos hlin, if_neg (by simpa using hfree hlin)]
      refine ih hfit (fun q hq hqlin => ?_) hapart
      rw [mem_cons, not_or]
      exact ⟨(hfirst q hq (.inl hlin)).symm, htaken q hq hqlin⟩
    · rw [if_neg hlin]
      exact ih hfit htaken hapart

instance : Std.Symm Apart := ⟨fun _ _ h hor => (h hor.symm).symm⟩

lemma writtenAndRead_of_apart (hapart : pins.Pairwise Apart) : writtenAndRead pins = [] := by
  refine eq_nil_iff_forall_not_mem.mpr fun u hu => ?_
  simp only [writtenAndRead, mem_sortedBy, mem_filter, List.mem_map, contains_iff_mem, Bool.not_eq_true',
    Prod.exists, exists_and_right, exists_eq_right] at hu
  obtain ⟨⟨k, hwritten, hlin⟩, k', hread, hlin'⟩ := hu
  have hne : (u, k) ≠ (u, k') := by
    intro heq
    rw [(Prod.mk.inj heq).2, hlin'] at hlin
    cases hlin
  exact hapart.forall hwritten hread hne (.inl hlin) rfl

lemma checkArgs_of_fit (hlength : args.length = op.signature.length)
    (hfit : ∀ p ∈ args.zip op.signature, c.hasUnit p.1 ∧ p.1.kind = p.2.unitKind)
    (hapart : (args.zip op.signature).Pairwise Apart) : c.checkArgs op args = .ok () := by
  unfold checkArgs
  rw [if_neg (not_not.mpr hlength.symm), checkEach_of_fit hfit (fun _ _ _ => not_mem_nil) hapart,
    writtenAndRead_of_apart hapart]
  rfl

/-- **What an operation needs of a circuit**: an argument for each pin, which is a unit of the kind that the pin takes,
    no unit at a linear pin that is given to another pin too, and an opgroup that is new or has the signature. -/
structure Accepts (c : Circuit) (op : Op) (args : List UnitId) (og : Option String) : Prop where
  arity : args.length = op.signature.length
  units : ∀ p ∈ args.zip op.signature, c.hasUnit p.1 = true ∧ p.1.kind = p.2.unitKind
  apart : (args.zip op.signature).Pairwise Apart
  opgroup : ∀ name s, og = some name → c.opgroups.get? name = some s → s = op.signature

lemma accepts_iff : c.Accepts op args og ↔ c.checkArgs op args = .ok () ∧ c.Joins op og := by
  constructor
  · exact fun h => ⟨checkArgs_of_fit h.arity h.units h.apart, h.opgroup⟩
  · rintro ⟨hargs, hjoins⟩
    obtain ⟨harity, hunits, hapart⟩ := checkArgs_eq_ok hargs
    exact ⟨harity, hunits, hapart, hjoins⟩

lemma Accepts.run (h : c.Accepts op args og) (hc : c.Wired unit) : ∃ g unit', addOp op args og c =
        .ok c.graph.vertices.nextHandle { c with graph := g, opgroups := withOpgroup c.opgroups op og } ∧
      c.Extends { c with graph := g, opgroups := withOpgroup c.opgroups op og } unit unit' op args og := by
  obtain ⟨hargs, hjoins⟩ := accepts_iff.mp h
  obtain ⟨g, unit', hextends, hrun⟩ := addOp_extends hc hargs hjoins
  exact ⟨g, unit', hrun, hextends⟩

lemma addOp_of_not_accepts (h : ¬ c.Accepts op args og) : ∃ e, addOp op args og c = .error e c := by
  unfold addOp
  cases hargs : c.checkArgs op args with
  | error e => exact ⟨e, bind_error (ask_of_error hargs)⟩
  | ok =>
    rw [bind_ok (ask_of_ok hargs)]
    rcases joinOpgroup_cases op og c with ⟨hjoins, _⟩ | ⟨_, e, herror⟩
    · exact absurd (accepts_iff.mpr ⟨hargs, hjoins⟩) h
    · exact ⟨e, bind_error herror⟩

lemma addOp_eq_ok (hc : c.Wired unit) (hrun : addOp op args og c = .ok v c') : c.Accepts op args og ∧
    v = c.graph.vertices.nextHandle ∧ ∃ unit', c.Extends c' unit unit' op args og := by
  by_cases haccepts : c.Accepts op args og
  · obtain ⟨_, unit', hok, hextends⟩ := haccepts.run hc
    obtain ⟨rfl, rfl⟩ := ok_unique hrun hok
    exact ⟨haccepts, rfl, unit', hextends⟩
  · obtain ⟨e, herror⟩ := addOp_of_not_accepts haccepts
    cases herror.symm.trans hrun

/-- **An operation is added whole or not at all**, and added after the commands that are there. The numbers of vertices
    have to go upwards for that, as they do in all circuits that calls make (`Reachable.sequenced`). -/
theorem addOp_appends_or_refuses (h : c.WellFormed) (op : Op) (args : List UnitId) (og : Option String) :
    ((∃ v c', addOp op args og c = .ok v c') ↔ c.Accepts op args og) ∧ (∀ e c', addOp op args og c = .error e c' → c' = c) ∧
      ∀ v c', addOp op args og c = .ok v c' → c'.WellFormed ∧
        (c.Sequenced → c'.Sequenced ∧ c'.commands = c.commands ++ [⟨op, args, og, v⟩]) := by
  by_cases haccepts : c.Accepts op args og
  · obtain ⟨_, unit', hrun, hextends⟩ := haccepts.run h.wired
    refine ⟨iff_of_true ⟨_, _, hrun⟩ haccepts, fun e c' herror => ?_, fun v c' hok => ?_⟩
    · rw [hrun] at herror
      cases herror
    · rw [hrun] at hok
      obtain ⟨rfl, rfl⟩ := EStateM.Result.ok.inj hok
      refine ⟨hextends.wired'.wellFormed, fun hseq => ⟨?_, hextends.commands_eq hseq⟩⟩
      exact addOp_sequenced op args og _ _ _ hseq hrun
  · obtain ⟨e, hrun⟩ := addOp_of_not_accepts haccepts
    have hfails : ∀ v c', addOp op args og c ≠ .ok v c' := by
      intro v c' hok
      rw [hrun] at hok
      cases hok
    refine ⟨iff_of_false ?_ haccepts, fun e' c' herror => ?_, fun v c' hok => absurd hok (hfails v c')⟩
    · rintro ⟨v, c', hok⟩
      exact hfails v c' hok
    · rw [hrun] at herror
      exact (EStateM.Result.error.inj herror).2.symm

/-- A second measurement into a bit joins the opgroup of the first; a reset, which has another signature, does not. -/
theorem addOp_appends_or_refuses_measure : ∃ c v c' e,
    (ofUnits 2 1).edited (addOp .measure [.qubit 0, .bit 0] (some "m")) = .ok c ∧ c.WellFormed ∧
    c.Accepts .measure [.qubit 1, .bit 0] (some "m") ∧
    addOp .measure [.qubit 1, .bit 0] (some "m") c = .ok v c' ∧ c'.WellFormed ∧
    c'.commands = c.commands ++ [⟨.measure, [.qubit 1, .bit 0], some "m", v⟩] ∧
    ¬ c.Accepts .reset [.qubit 0] (some "m") ∧ addOp .reset [.qubit 0] (some "m") c = .error e c := by
  simp only [exists_and_left]
  refine exists_run fun c hc => ?_
  obtain ⟨c', hc', _⟩ : ∃ c', c.edited (addOp .measure [.qubit 1, .bit 0] (some "m")) = .ok c' ∧ True :=
    of_run hc (by decide +kernel)
  obtain ⟨e, d, hreset, _⟩ : ∃ e d, addOp .reset [.qubit 0] (some "m") c = .error e d ∧ True :=
    of_run hc (by decide +kernel)
  obtain ⟨v, hsecond⟩ := edited_eq_ok.mp hc'
  have hnumbers : ∀ p ∈ (ofUnits 2 1).graph.vertices.entries, p.2.sequence < (ofUnits 2 1).graph.nextSequence := by
    decide +kernel
  have hstart : (ofUnits 2 1).Sequenced := fun w n hn => hnumbers (w, n) (SlotStore.mem_of_get? hn)
  have hwell := wellFormed_edited hc
  obtain ⟨hiff, _, happends⟩ := addOp_appends_or_refuses hwell .measure [.qubit 1, .bit 0] (some "m")
  obtain ⟨hwell', hcommands⟩ := happends v c' hsecond
  obtain ⟨hiff', hrefused, _⟩ := addOp_appends_or_refuses hwell .reset [.qubit 0] (some "m")
  refine ⟨hwell, hiff.mp ⟨v, c', hsecond⟩, v, c', hsecond, hwell',
    (hcommands ((addOp_sequenced _ _ _).edited hstart hc)).2, fun haccepts => ?_, e, hrefused e d hreset ▸ hreset⟩
  obtain ⟨w, d', hrun⟩ := hiff'.mpr haccepts
  cases hreset.symm.trans hrun

end Wireloom.Circuit
