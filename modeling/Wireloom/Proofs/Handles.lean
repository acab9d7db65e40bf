import Wireloom.Proofs.Mirroring

/-!
# `Graph.Call`, `Graph.handles_never_alias` — handles over a run of calls

A run is a list of calls on a graph, whether they succeed or not. What a call hands out is new: it was neither there nor
freed before (`Call.Issues`).
-/

namespace Wireloom

open List SlotStore

namespace Graph

/-! ## Calls -/

/-- A call on a graph. -/
inductive Call where
  | addVertex (kind : NodeKind) (opgroup : Option String)
  | addWire (first last : NodeKind) (kind : WireKind)
  | addLink (l : Link)
  | removeEdge (e : Edge)
  | removeVertex (v : Vertex) (rewiring : Rewiring) (deletion : Deletion)
  | isolate (v : Vertex)
  | setKind (v : Vertex) (kind : NodeKind)
  | setOpgroup (v : Vertex) (opgroup : Option String)

/-- What a call hands out: every handle with what it names then. -/
structure Issue where
  vertices : List (Vertex × Node) := []
  edges : List (Edge × Link) := []

/-- The graph with the wires through a vertex joined, if they are to be. -/
def rewired (g : Graph) (v : Vertex) (rewiring : Rewiring) : Graph :=
  if rewiring = .splice then afterwards (splice v) g else g

namespace Call

def run : Call → Edit Issue
  | addVertex kind opgroup => do
    let v ← Graph.addVertex kind opgroup
    return { vertices := [(v, ← ask (·.node v))] }
  | addWire first last kind => do
    let (input, output) ← Graph.addWire first last kind
    return { vertices := [(input, ← ask (·.node input)), (output, ← ask (·.node output))] }
  | addLink l => do
    let e ← Graph.addLink l
    return { edges := [(e, ← ask (·.link e))] }
  | removeEdge e => do
    let _ ← Graph.removeEdge e
    return {}
  | removeVertex v rewiring deletion => do
    Graph.removeVertex v rewiring deletion
    return {}
  | isolate v => do
    Graph.isolate v
    return {}
  | setKind v kind => do
    Graph.setKind v kind
    return {}
  | setOpgroup v opgroup => do
    Graph.setOpgroup v opgroup
    return {}

/-- The graph after the call, whether it succeeds or not. -/
def next (call : Call) (g : Graph) : Graph := afterwards call.run g

/-- What the call hands out. If it fails, that is nothing. -/
def issue (call : Call) (g : Graph) : Issue :=
  match call.run g with
  | .ok issue _ => issue
  | .error _ _ => {}

def newVertices (call : Call) (g : Graph) : List (Vertex × Node) := (call.issue g).vertices

def newEdges (call : Call) (g : Graph) : List (Edge × Link) := (call.issue g).edges

/-- Whether the call succeeds. -/
def succeeds (call : Call) (g : Graph) : Bool :=
  match call.run g with
  | .ok _ _ => true
  | .error _ _ => false

/-- What the vertices that the call hands out are to hold. -/
def contents : Call → List (NodeKind × Option String)
  | addVertex kind opgroup => [(kind, opgroup)]
  | addWire first last _ => [(first, none), (last, none)]
  | _ => []

/-- What is at a vertex after the call, if the vertex is still there. -/
def touch (v : Vertex) (n : Node) : Call → Node
  | setKind w kind => if w = v then { n with kind } else n
  | setOpgroup w opgroup => if w = v then { n with opgroup } else n
  | _ => n

/-- The call deletes a vertex. -/
def Deletes (call : Call) (g : Graph) (v : Vertex) : Prop :=
  call.succeeds g = true ∧ ∃ rewiring, call = .removeVertex v rewiring .delete

/-- The call is the end of an edge: it takes the edge out, or cuts off or removes a vertex at one of its ends. -/
def Cuts (call : Call) (g : Graph) (e : Edge) : Prop :=
  call.succeeds g = true ∧ match call with
    | removeEdge e' => e' = e
    | isolate v => ∃ l, g.edges.get? e = some l ∧ ¬ l.Avoids v
    | removeVertex v _ _ => ∃ l, g.edges.get? e = some l ∧ ¬ l.Avoids v
    | _ => False

/-- Whether the call may free something. -/
def frees : Call → Bool
  | removeEdge _ => true
  | removeVertex _ _ _ => true
  | isolate _ => true
  | _ => false

def freedVertices (call : Call) (g : Graph) : List Vertex :=
  match call with
  | removeVertex v _ .delete => if call.succeeds g then [v] else []
  | _ => []

/-- The edges that the call frees, one after the other. An edge from a vertex to itself is listed twice when the vertex
is cut off, and its slot moves on by two generations. -/
def freedEdges (call : Call) (g : Graph) : List Edge :=
  if call.succeeds g then
    match call with
    | removeEdge e => [e]
    | isolate v => (g.around v).map Prod.fst
    | removeVertex v rewiring _ => ((g.rewired v rewiring).around v).map Prod.fst
    | _ => []
  else []

end Call

/-! ## Graphs that keep count -/

variable {g g' g₀ : Graph} {vs : List Vertex} {es : List Edge} {v w : Vertex} {e : Edge} {l : Link} {n : Node}
  {call : Call} {calls : List Call}

/-- **A graph that keeps count** of what was freed in it, with links between vertices that are there. -/
structure Counted (vs : List Vertex) (es : List Edge) (g : Graph) : Prop where
  vertices : g.vertices.Counted vs
  edges : g.edges.Counted es
  source_live : ∀ {l}, g.HasLink l → g.Live l.source.vertex
  target_live : ∀ {l}, g.HasLink l → g.Live l.target.vertex
  sequenced : g.Sequenced

lemma counted_empty : Counted [] [] {} where
  vertices := SlotStore.counted_empty
  edges := SlotStore.counted_empty
  source_live := by
    rintro l ⟨e, he⟩
    cases he
  target_live := by
    rintro l ⟨e, he⟩
    cases he
  sequenced := by
    intro v n hn
    cases hn

namespace Counted

lemma valid (h : g.Counted vs es) : g.Valid := ⟨h.vertices.valid, h.edges.valid, h.source_live, h.target_live⟩

lemma of_valid (hg : g.Valid) (hvs : g.vertices.Counted vs) (hes : g.edges.Counted es) (hseq : g.Sequenced) :
    g.Counted vs es :=
  ⟨hvs, hes, hg.source_live, hg.target_live, hseq⟩

lemma withVertex (h : g.Counted vs es) (kind : NodeKind) (og : Option String) : (g.withVertex kind og).Counted vs es :=
  of_valid (h.valid.withVertex kind og) (h.vertices.insert _) h.edges h.sequenced.withVertex

lemma withLink (h : g.Counted vs es) (hs : g.Live l.source.vertex) (ht : g.Live l.target.vertex) :
    (g.withLink l).Counted vs es :=
  of_valid (h.valid.withLink hs ht) h.vertices (h.edges.insert _) h.sequenced

lemma update (h : g.Counted vs es) {f : Node → Node} (hf : ∀ n, (f n).sequence = n.sequence) :
    { g with vertices := g.vertices.update v f }.Counted vs es where
  vertices := h.vertices.update v f
  edges := h.edges
  source_live hl := live_update.mpr (h.source_live hl)
  target_live hl := live_update.mpr (h.target_live hl)
  sequenced := by
    intro w n hn
    rw [get?_update] at hn
    split at hn
    · obtain ⟨n0, hn0, rfl⟩ := Option.map_eq_some_iff.mp hn
      rw [hf]
      exact h.sequenced w n0 hn0
    · exact h.sequenced w n hn

lemma edges_withoutEdges (es : List (Edge × Link)) (g : Graph) :
    (g.withoutEdges es).edges = (es.map Prod.fst).foldl release g.edges := by
  induction es generalizing g with
  | nil => rfl
  | cons p rest ih => exact ih (g.withoutEdge p.1)

lemma withoutEdges (h : g.Counted vs es) (ps : List (Edge × Link)) (hps : ∀ p ∈ ps, g.edges.get? p.1 = some p.2) :
    (g.withoutEdges ps).Counted vs (es ++ ps.map Prod.fst) where
  vertices := by
    rw [vertices_withoutEdges]
    exact h.vertices
  edges := by
    rw [edges_withoutEdges]
    refine h.edges.releaseAll _ fun e he => ?_
    obtain ⟨p, hp, rfl⟩ := mem_map.mp he
    exact ⟨p.2, hps p hp⟩
  source_live := fun ⟨e, he⟩ => (live_congr vertices_withoutEdges).mpr (h.source_live ⟨e, (get?_withoutEdges.mp he).2⟩)
  target_live := fun ⟨e, he⟩ => (live_congr vertices_withoutEdges).mpr (h.target_live ⟨e, (get?_withoutEdges.mp he).2⟩)
  sequenced := Graph.lasting_sequenced.of_vertices h.sequenced vertices_withoutEdges (nextSequence_withoutEdges _ _)

lemma withoutVertex (h : g.Counted vs es) (hv : g.Live v) (hfree : ∀ l, g.HasLink l → l.Avoids v) :
    (g.withoutVertex v).Counted (vs ++ [v]) es := by
  obtain ⟨n, hn⟩ := live_iff.mp hv
  exact of_valid (h.valid.withoutVertex hv hfree) (h.vertices.releaseAll [v] (by simp [hn])) h.edges h.sequenced.withoutVertex

end Counted

/-! ### Joining wires -/

/-- **Only links have come in.** -/
structure Grown (g₀ g : Graph) : Prop where
  vertices : g.vertices = g₀.vertices
  nextSequence : g.nextSequence = g₀.nextSequence
  edge : ∀ {e l}, g₀.edges.get? e = some l → g.edges.get? e = some l

lemma Grown.refl (g : Graph) : Grown g g := ⟨rfl, rfl, id⟩

lemma ask_always {P : Graph → Prop} {α : Type} {question : Graph → Except CircuitError α} : Always P (ask question) := by
  intro g h
  cases hq : question g with
  | ok a => rwa [afterwards_of_ok (ask_of_ok hq)]
  | error e => rwa [afterwards_of_error (ask_of_error hq)]

lemma node_of_not_live (h : ¬ g.Live v) : ∃ cause, g.node v = .error cause := by
  cases hnode : g.node v with
  | error cause => exact ⟨cause, rfl⟩
  | ok n => exact absurd (live_of_node hnode).1 h

lemma addLink_of_not_live (h : ¬ (g.Live l.source.vertex ∧ g.Live l.target.vertex)) : ∃ e, addLink l g = .error e g := by
  unfold addLink
  cases hs : g.node l.source.vertex with
  | error e => exact ⟨e, bind_error (ask_of_error hs)⟩
  | ok n =>
    rw [bind_ok (ask_of_ok hs)]
    cases ht : g.node l.target.vertex with
    | error e => exact ⟨e, bind_error (ask_of_error ht)⟩
    | ok n' => exact absurd ⟨(live_of_node hs).1, (live_of_node ht).1⟩ h

lemma addLink_always (l : Link) : Always (fun g => g.Counted vs es ∧ Grown g₀ g) (addLink l) := by
  rintro g ⟨hc, hgrown⟩
  by_cases hlive : g.Live l.source.vertex ∧ g.Live l.target.vertex
  · rw [afterwards_of_ok (addLink_of_live hlive.1 hlive.2)]
    refine ⟨hc.withLink hlive.1 hlive.2, hgrown.vertices, hgrown.nextSequence, fun he => ?_⟩
    exact get?_withLink_of_some hc.valid (hgrown.edge he)
  · obtain ⟨e, herror⟩ := addLink_of_not_live hlive
    rw [afterwards_of_error herror]
    exact ⟨hc, hgrown⟩

lemma rewired_grown (h : g.Counted vs es) (v : Vertex) (rewiring : Rewiring) :
    (g.rewired v rewiring).Counted vs es ∧ Grown g (g.rewired v rewiring) := by
  have hlink : ∀ l, Always (fun g' => g'.Counted vs es ∧ Grown g g') (spliceLink l) := by
    intro l
    refine Always.ite ?_ (Always.pure _)
    refine ask_always.bind fun _ => (addLink_always _).bind fun _ => Always.ite ?_ (Always.pure _)
    exact Always.get.bind fun _ => Always.forM (fun _ => (addLink_always _).discard) _
  have hsplice : Always (fun g' => g'.Counted vs es ∧ Grown g g') (splice v) :=
    Always.get.bind fun _ => Always.forM (fun _ => hlink _) _
  unfold rewired
  split
  · exact hsplice g ⟨h, .refl g⟩
  · exact ⟨h, .refl g⟩

/-! ## One call -/

lemma Call.of_ok {i : Issue} (h : call.run g = .ok i g') : call.next g = g' ∧ call.issue g = i ∧ call.succeeds g := by
  unfold Call.next afterwards Call.issue Call.succeeds
  simp [h]

lemma Call.of_error {cause : CircuitError} (h : call.run g = .error cause g') :
    call.next g = g' ∧ call.issue g = {} ∧ call.succeeds g = false := by
  unfold Call.next afterwards Call.issue Call.succeeds
  simp [h]

/-- A call that fails, or that takes nothing out, frees nothing. -/
lemma Call.freed_eq_nil (h : call.succeeds g = false ∨ call.frees = false) : call.freedVertices g = [] ∧
    call.freedEdges g = [] ∧ (∀ v, ¬ call.Deletes g v) ∧ ∀ e, ¬ call.Cuts g e := by
  rcases h with h | h
  · refine ⟨?_, by simp [freedEdges, h], by simp [Deletes, h], by simp [Cuts, h]⟩
    unfold freedVertices
    split
    · simp [h]
    · rfl
  · cases call with
    | removeEdge _ => cases h
    | removeVertex _ _ _ => cases h
    | isolate _ => cases h
    | _ => exact ⟨rfl, by simp [freedEdges], by simp [Deletes], by simp [Cuts]⟩

/-- **What one call does** to a graph that keeps count: it goes on counting, and a handle is freed or names what it named
    before, but for what was set. -/
structure Call.Steps (vs : List Vertex) (es : List Edge) (call : Call) (g : Graph) : Prop where
  counted : (call.next g).Counted (vs ++ call.freedVertices g) (es ++ call.freedEdges g)
  vertex_ended : ∀ {v n}, g.vertices.get? v = some n → call.Deletes g v → v ∈ call.freedVertices g
  vertex_kept : ∀ {v n}, g.vertices.get? v = some n → ¬ call.Deletes g v → (call.next g).vertices.get? v = some (call.touch v n)
  edge_ended : ∀ {e l}, g.edges.get? e = some l → call.Cuts g e → e ∈ call.freedEdges g
  edge_kept : ∀ {e l}, g.edges.get? e = some l → ¬ call.Cuts g e → (call.next g).edges.get? e = some l
  later : g.nextSequence ≤ (call.next g).nextSequence

namespace Call.Steps

lemma of_error {cause : CircuitError} (hrun : call.run g = .error cause g') (hc : g'.Counted vs es)
    (hgrown : Grown g g') (htouch : ∀ {v n}, g.vertices.get? v = some n → call.touch v n = n) :
    call.Steps vs es g := by
  obtain ⟨hnext, -, hfails⟩ := Call.of_error hrun
  obtain ⟨hvs, hes, hdel, hcut⟩ := Call.freed_eq_nil (.inl hfails)
  refine ⟨?_, fun _ h => absurd h (hdel _), fun {v n} hn _ => ?_, fun _ h => absurd h (hcut _), fun {e l} he _ => ?_, ?_⟩
  · simpa [hnext, hvs, hes] using hc
  · rw [hnext, hgrown.vertices, htouch hn, hn]
  · rw [hnext, hgrown.edge he]
  · rw [hnext, hgrown.nextSequence]

lemma of_ok {i : Issue} (hrun : call.run g = .ok i g') (hc : g'.Counted vs es) (hfrees : call.frees = false)
    (hvertex : ∀ {v n}, g.vertices.get? v = some n → g'.vertices.get? v = some (call.touch v n))
    (hedge : ∀ {e l}, g.edges.get? e = some l → g'.edges.get? e = some l) (hlater : g.nextSequence ≤ g'.nextSequence) :
    call.Steps vs es g := by
  obtain ⟨hnext, -⟩ := Call.of_ok hrun
  obtain ⟨hvs, hes, hdel, hcut⟩ := Call.freed_eq_nil (g := g) (.inr hfrees)
  refine ⟨?_, fun _ h => absurd h (hdel _), fun hn _ => ?_, fun _ h => absurd h (hcut _), fun he _ => ?_, ?_⟩
  · simpa [hnext, hvs, hes] using hc
  · rw [hnext]
    exact hvertex hn
  · rw [hnext]
    exact hedge he
  · rw [hnext]
    exact hlater

end Call.Steps

/-! ### Calls that put something in -/

lemma run_addVertex (g : Graph) (kind : NodeKind) (og : Option String) : (Call.addVertex kind og).run g =
    .ok { vertices := [(g.vertices.nextHandle, ⟨kind, og, g.nextSequence⟩)] } (g.withVertex kind og) := by
  have hnode : (g.withVertex kind og).node g.vertices.nextHandle = .ok ⟨kind, og, g.nextSequence⟩ :=
    node_eq_ok.mpr (get?_insert_same _ _)
  rw [Call.run, bind_ok (addVertex_run g kind og), bind_ok (ask_of_ok hnode)]
  rfl

lemma run_addLink (hs : g.Live l.source.vertex) (ht : g.Live l.target.vertex) : (Call.addLink l).run g =
    .ok { edges := [(g.edges.nextHandle, l)] } (g.withLink l) := by
  have hlink : (g.withLink l).link g.edges.nextHandle = .ok l := link_eq_ok.mpr (get?_insert_same _ _)
  rw [Call.run, bind_ok (addLink_of_live hs ht), bind_ok (ask_of_ok hlink)]
  rfl

section Steps

variable (h : g.Counted vs es)
include h

lemma steps_addVertex (kind : NodeKind) (og : Option String) : (Call.addVertex kind og).Steps vs es g :=
  .of_ok (run_addVertex g kind og) (h.withVertex kind og) rfl (fun hn => get?_withVertex_of_some h.valid hn) id (Nat.le_succ _)

lemma run_addWire (first last : NodeKind) (kind : WireKind) : (Call.addWire first last kind).run g =
    .ok { vertices := [(g.vertices.nextHandle, ⟨first, none, g.nextSequence⟩),
      ((g.withVertex first none).vertices.nextHandle, ⟨last, none, g.nextSequence + 1⟩)] }
      (g.withWire first last kind).2 := by
  have hinput : (g.withWire first last kind).2.node g.vertices.nextHandle = .ok ⟨first, none, g.nextSequence⟩ :=
    node_eq_ok.mpr (get?_withVertex_of_some (h.withVertex first none).valid (get?_insert_same _ _))
  have houtput : (g.withWire first last kind).2.node (g.withVertex first none).vertices.nextHandle =
      .ok ⟨last, none, g.nextSequence + 1⟩ := node_eq_ok.mpr (get?_insert_same _ _)
  have hrun : Graph.addWire first last kind g =
      .ok (g.vertices.nextHandle, (g.withVertex first none).vertices.nextHandle) (g.withWire first last kind).2 := rfl
  rw [Call.run, bind_ok hrun]
  dsimp only
  rw [bind_ok (ask_of_ok hinput), bind_ok (ask_of_ok houtput)]
  rfl

lemma Counted.withWire (first last : NodeKind) (kind : WireKind) : (g.withWire first last kind).2.Counted vs es := by
  have hboth := (h.withVertex first none).withVertex last none
  refine hboth.withLink (live_withVertex.mpr (.inr ?_)) (live_withVertex.mpr (.inl rfl))
  exact live_withVertex.mpr (.inl rfl)

lemma steps_addWire (first last : NodeKind) (kind : WireKind) : (Call.addWire first last kind).Steps vs es g := by
  refine .of_ok (run_addWire h first last kind) (h.withWire first last kind) rfl (fun hn => ?_) (fun he => ?_)
    (Nat.le_add_right _ 2)
  · exact get?_withVertex_of_some (h.withVertex first none).valid (get?_withVertex_of_some h.valid hn)
  · exact get?_withLink_of_some ((h.withVertex first none).withVertex last none).valid he

lemma steps_addLink (l : Link) : (Call.addLink l).Steps vs es g := by
  by_cases hlive : g.Live l.source.vertex ∧ g.Live l.target.vertex
  · exact .of_ok (run_addLink hlive.1 hlive.2) (h.withLink hlive.1 hlive.2) rfl id (fun he => get?_withLink_of_some h.valid he) (Nat.le_refl _)
  · obtain ⟨cause, herror⟩ := addLink_of_not_live hlive
    have hrun : (Call.addLink l).run g = .error cause g := by rw [Call.run, bind_error herror]
    exact .of_error hrun h (.refl g) fun _ => rfl

/-! ### Calls that set something -/

lemma steps_update {f : Node → Node}
    (hok : ∀ n, g.node v = .ok n → call.run g = .ok {} { g with vertices := g.vertices.update v f })
    (herror : ∀ cause, g.node v = .error cause → call.run g = .error cause g)
    (hf : ∀ n, (f n).sequence = n.sequence) (htouch : ∀ w n, call.touch w n = if v = w then f n else n)
    (hfrees : call.frees = false) : call.Steps vs es g := by
  cases hnode : g.node v with
  | ok n =>
    refine .of_ok (hok n hnode) (h.update hf) hfrees (fun {w m} hm => ?_) id (Nat.le_refl _)
    rw [get?_update, htouch]
    by_cases hw : w = v
    · subst hw
      simp [hm]
    · rw [if_neg hw, if_neg (Ne.symm hw), hm]
  | error cause =>
    refine .of_error (herror cause hnode) h (.refl g) fun {w m} hm => ?_
    rw [htouch, if_neg]
    rintro rfl
    cases hnode.symm.trans (node_eq_ok.mpr hm)

lemma steps_setKind (v : Vertex) (kind : NodeKind) : (Call.setKind v kind).Steps vs es g := by
  refine steps_update h (f := fun n => { n with kind }) (fun n hn => ?_) (fun cause hn => ?_) (fun _ => rfl)
    (fun _ _ => rfl) rfl
  · rw [Call.run, bind_ok (setKind_of_live (live_of_node hn).1)]
    rfl
  · rw [Call.run, Graph.setKind, bind_error (bind_error (ask_of_error hn))]

lemma steps_setOpgroup (v : Vertex) (opgroup : Option String) : (Call.setOpgroup v opgroup).Steps vs es g := by
  refine steps_update h (f := fun n => { n with opgroup }) (fun n hn => ?_) (fun cause hn => ?_) (fun _ => rfl)
    (fun _ _ => rfl) rfl
  · have hset : Graph.setOpgroup v opgroup g =
        .ok ⟨⟩ { g with vertices := g.vertices.update v fun n => { n with opgroup } } := bind_ok (ask_of_ok hn)
    rw [Call.run, bind_ok hset]
    rfl
  · rw [Call.run, Graph.setOpgroup, bind_error (bind_error (ask_of_error hn))]

/-! ### Calls that take something out -/

lemma steps_removeEdge (e : Edge) : (Call.removeEdge e).Steps vs es g := by
  cases hlink : g.link e with
  | error cause =>
    have hrun : (Call.removeEdge e).run g = .error cause g := by
      rw [Call.run, Graph.removeEdge, bind_error (bind_error (ask_of_error hlink))]
    exact .of_error hrun h (.refl g) fun _ => rfl
  | ok l =>
    have he := link_eq_ok.mp hlink
    have hrun : (Call.removeEdge e).run g = .ok {} (g.withoutEdges [(e, l)]) := by
      rw [Call.run, bind_ok (removeEdge_of_get? he)]
      rfl
    obtain ⟨hnext, -, hok⟩ := Call.of_ok hrun
    have hes : (Call.removeEdge e).freedEdges g = [e] := by simp [Call.freedEdges, hok]
    refine ⟨?_, ?_, fun hn _ => ?_, fun {e' m} _ hcut => ?_, fun {e' m} he' hcut => ?_, ?_⟩
    · rw [hnext, hes]
      simpa [Call.freedVertices] using h.withoutEdges [(e, l)] (by simpa using he)
    · simp [Call.Deletes]
    · rw [hnext, vertices_withoutEdges]
      exact hn
    · rw [hes, mem_singleton]
      exact hcut.2.symm
    · rw [hnext, get?_withoutEdges]
      simpa [Call.Cuts, hok, eq_comm, he'] using hcut
    · exact Nat.le_of_eq (by rw [hnext, nextSequence_withoutEdges])

lemma mem_around_iff (he : g.edges.get? e = some l) : e ∈ (g.around v).map Prod.fst ↔ ¬ l.Avoids v := by
  have hlink : ∀ m, (e, m) ∈ g.around v → m = l := by
    intro m hm
    exact Option.mem_unique (get?_of_mem_around h.valid hm) he
  have hback : (g.withoutEdges (g.around v)).edges.get? e = some l ↔ l.Avoids v := by
    constructor
    · intro hkept
      exact ((hasLink_isolated h.valid).mp ⟨e, hkept⟩).2
    · intro havoid
      refine get?_withoutEdges.mpr ⟨fun hmem => ?_, he⟩
      obtain ⟨⟨_, m⟩, hm, rfl⟩ := mem_map.mp hmem
      obtain rfl := hlink m hm
      rcases mem_append.mp hm with hin | hout
      · exact havoid.2 ((mem_incoming h.valid).mp hin).2
      · exact havoid.1 ((mem_outgoing h.valid).mp hout).2
  rw [← hback, get?_withoutEdges]
  simp [he]

lemma Counted.isolated (v : Vertex) : (g.withoutEdges (g.around v)).Counted vs (es ++ (g.around v).map Prod.fst) :=
  h.withoutEdges _ fun _ hp => get?_of_mem_around h.valid hp

lemma steps_isolate (v : Vertex) : (Call.isolate v).Steps vs es g := by
  by_cases hv : g.Live v
  · have hrun : (Call.isolate v).run g = .ok {} (g.withoutEdges (g.around v)) := by
      rw [Call.run, bind_ok (isolate_run hv)]
      rfl
    obtain ⟨hnext, -, hok⟩ := Call.of_ok hrun
    have hes : (Call.isolate v).freedEdges g = (g.around v).map Prod.fst := by simp [Call.freedEdges, hok]
    refine ⟨?_, ?_, fun hn _ => ?_, fun {e m} he hcut => ?_, fun {e m} he hcut => ?_, ?_⟩
    · rw [hnext, hes]
      simpa [Call.freedVertices] using h.isolated v
    · simp [Call.Deletes]
    · rw [hnext, vertices_withoutEdges]
      exact hn
    · obtain ⟨_, l, he', hnot⟩ := hcut
      rw [hes, mem_around_iff h he']
      exact hnot
    · rw [hnext, get?_withoutEdges, mem_around_iff h he]
      exact ⟨fun hnot => hcut ⟨hok, m, he, hnot⟩, he⟩
    · exact Nat.le_of_eq (by rw [hnext, nextSequence_withoutEdges])
  · obtain ⟨cause, hnode⟩ := node_of_not_live hv
    have hrun : (Call.isolate v).run g = .error cause g := by
      rw [Call.run, Graph.isolate, bind_error (bind_error (ask_of_error hnode))]
    exact .of_error hrun h (.refl g) fun _ => rfl

/-- **How a vertex is removed**: its wires are joined, and unless that fails, it is cut off and taken out. -/
theorem removeVertex_cases (hv : g.Live v) (rewiring : Rewiring) (deletion : Deletion) :
    let g1 := g.rewired v rewiring
    (∃ cause, removeVertex v rewiring deletion g = .error cause g1) ∨ removeVertex v rewiring deletion g = .ok ⟨⟩
        (if deletion = .delete then (g1.withoutEdges (g1.around v)).withoutVertex v else g1.withoutEdges (g1.around v)) := by
  intro g1
  obtain ⟨_, hgrown⟩ := rewired_grown h v rewiring
  obtain ⟨n, hn, _⟩ := node_of_live hv
  have hv1 : g1.Live v := (live_congr hgrown.vertices).mpr hv
  have hlast : (do
      isolate v
      if deletion = .delete then modify (·.withoutVertex v) : Edit Unit) g1 = .ok ⟨⟩
        (if deletion = .delete then (g1.withoutEdges (g1.around v)).withoutVertex v else g1.withoutEdges (g1.around v)) := by
    rw [bind_ok (isolate_run hv1)]
    cases deletion <;> rfl
  unfold removeVertex
  rw [bind_ok (ask_of_ok hn)]
  cases rewiring with
  | cut => exact .inr hlast
  | splice =>
    have hg1 : g1 = afterwards (splice v) g := rfl
    cases hsplice : splice v g with
    | ok _ g' =>
      rw [afterwards_of_ok hsplice] at hg1
      subst hg1
      exact .inr ((bind_ok hsplice).trans hlast)
    | error cause g' =>
      rw [afterwards_of_error hsplice] at hg1
      subst hg1
      exact .inl ⟨cause, bind_error hsplice⟩

lemma steps_removeVertex (v : Vertex) (rewiring : Rewiring) (deletion : Deletion) :
    (Call.removeVertex v rewiring deletion).Steps vs es g := by
  by_cases hv : g.Live v
  · obtain ⟨hc1, hgrown⟩ := rewired_grown h v rewiring
    rcases removeVertex_cases h hv rewiring deletion with ⟨cause, herror⟩ | hremove
    · have hrun : (Call.removeVertex v rewiring deletion).run g = .error cause (g.rewired v rewiring) := by
        rw [Call.run, bind_error herror]
      exact .of_error hrun hc1 hgrown fun _ => rfl
    generalize hg1 : g.rewired v rewiring = g1 at hc1 hgrown hremove
    have hrun : (Call.removeVertex v rewiring deletion).run g = .ok {} _ := bind_ok hremove
    obtain ⟨hnext, -, hok⟩ := Call.of_ok hrun
    -- rewiring has only put links in: what is freed is what is around the vertex after it
    have hes : (Call.removeVertex v rewiring deletion).freedEdges g = (g1.around v).map Prod.fst := by
      simp [Call.freedEdges, hok, hg1]
    have hiso := hc1.isolated v
    have hv1 : (g1.withoutEdges (g1.around v)).Live v :=
      (live_congr (vertices_withoutEdges.trans hgrown.vertices)).mpr hv
    have hedge : ∀ {e l}, g.edges.get? e = some l → (e ∈ (g1.around v).map Prod.fst ↔ ¬ l.Avoids v) :=
      fun he => mem_around_iff hc1 (hgrown.edge he)
    have hedges : ∀ e, ((Call.removeVertex v rewiring deletion).next g).edges.get? e =
        (g1.withoutEdges (g1.around v)).edges.get? e := by
      intro e
      rw [hnext]
      cases deletion <;> rfl
    refine ⟨?_, fun {w n} _ hdel => ?_, fun {w n} hn hdel => ?_, fun {e m} he hcut => ?_, fun {e m} he hcut => ?_, ?_⟩
    · rw [hnext, hes]
      cases deletion with
      | delete =>
        simpa [Call.freedVertices, hok] using hiso.withoutVertex hv1 fun l hl => ((hasLink_isolated hc1.valid).mp hl).2
      | keep => simpa [Call.freedVertices] using hiso
    · obtain ⟨_, _, heq⟩ := hdel
      cases heq
      simp [Call.freedVertices, hok]
    · have hn1 : (g1.withoutEdges (g1.around v)).vertices.get? w = some n := by
        rw [vertices_withoutEdges, hgrown.vertices, hn]
      rw [hnext]
      cases deletion with
      | keep => exact hn1
      | delete =>
        have hne : w ≠ v := fun heq => hdel ⟨hok, rewiring, by rw [heq]⟩
        exact (get?_release_other _ hne).trans hn1
    · obtain ⟨_, l, he', hnot⟩ := hcut
      rw [hes, hedge he']
      exact hnot
    · rw [hedges, get?_withoutEdges, hedge he]
      exact ⟨fun hnot => hcut ⟨hok, m, he, hnot⟩, hgrown.edge he⟩
    · have hsame : ((Call.removeVertex v rewiring deletion).next g).nextSequence = g.nextSequence := by
        rw [hnext]
        cases deletion <;> exact (nextSequence_withoutEdges _ _).trans hgrown.nextSequence
      exact Nat.le_of_eq hsame.symm
  · obtain ⟨cause, hnode⟩ := node_of_not_live hv
    have hrun : (Call.removeVertex v rewiring deletion).run g = .error cause g := by
      rw [Call.run, Graph.removeVertex, bind_error (bind_error (ask_of_error hnode))]
    exact .of_error hrun h (.refl g) fun _ => rfl

lemma Call.steps (call : Call) : call.Steps vs es g := by
  cases call with
  | addVertex kind og => exact steps_addVertex h kind og
  | addWire first last kind => exact steps_addWire h first last kind
  | addLink l => exact steps_addLink h l
  | removeEdge e => exact steps_removeEdge h e
  | removeVertex v rewiring deletion => exact steps_removeVertex h v rewiring deletion
  | isolate v => exact steps_isolate h v
  | setKind v kind => exact steps_setKind h v kind
  | setOpgroup v og => exact steps_setOpgroup h v og

end Steps

end Graph

/-! # `Graph.handles_never_alias` -/

open SlotStore (FreedSeldom Spent)

namespace Graph

variable {g g' : Graph} {vs : List Vertex} {es : List Edge} {v : Vertex} {e : Edge} {l : Link} {n : Node}
  {call : Call} {calls : List Call}

/-! ## What is handed out -/

/-- **What one call hands out** is new: it was neither there nor freed before. -/
structure Call.Issues (vs : List Vertex) (es : List Edge) (call : Call) (g : Graph) : Prop where
  contents : (call.newVertices g).map (fun p => (p.2.kind, p.2.opgroup)) = call.contents
  link : ∀ p ∈ call.newEdges g, call = .addLink p.2
  vertex_new : ∀ p ∈ call.newVertices g,
    g.vertices.get? p.1 = none ∧ (FreedSeldom vs → ¬ Spent vs p.1) ∧ (call.next g).vertices.get? p.1 = some p.2
  edge_new : ∀ p ∈ call.newEdges g,
    g.edges.get? p.1 = none ∧ (FreedSeldom es → ¬ Spent es p.1) ∧ (call.next g).edges.get? p.1 = some p.2
  vertices_nodup : ((call.newVertices g).map Prod.fst).Nodup
  edges_nodup : ((call.newEdges g).map Prod.fst).Nodup
  sequences : ((call.newVertices g).map fun p => p.2.sequence).Pairwise (· < ·)
  between : ∀ p ∈ call.newVertices g, g.nextSequence ≤ p.2.sequence ∧ p.2.sequence < (call.next g).nextSequence

lemma Call.Issues.of_empty (hissue : call.issue g = {}) (hcontents : call.contents = []) : call.Issues vs es g := by
  constructor <;> simp [Call.newVertices, Call.newEdges, hissue, hcontents]

lemma Call.issue_of_quiet {α : Type} {edit : Edit α} (hrun : call.run = do let _ ← edit; return {}) : call.issue g = {} := by
  cases hedit : edit g with
  | ok a g' =>
    have hok : call.run g = .ok {} g' := by
      rw [hrun, bind_ok hedit]
      rfl
    exact (Call.of_ok hok).2.1
  | error cause g' =>
    have herror : call.run g = .error cause g' := by rw [hrun, bind_error hedit]
    exact (Call.of_error herror).2.1

section Issues

variable (h : g.Counted vs es)
include h

lemma issues_addVertex (kind : NodeKind) (og : Option String) : (Call.addVertex kind og).Issues vs es g := by
  obtain ⟨hnext, hissue, -⟩ := Call.of_ok (run_addVertex g kind og)
  have hnew : (Call.addVertex kind og).newVertices g = [(g.vertices.nextHandle, ⟨kind, og, g.nextSequence⟩)] := by
    rw [Call.newVertices, hissue]
  have hnone : (Call.addVertex kind og).newEdges g = [] := by rw [Call.newEdges, hissue]
  constructor
  · simp [hnew, Call.contents]
  · simp [hnone]
  · simp only [hnew, forall_mem_singleton, hnext]
    exact ⟨get?_nextHandle h.vertices.valid, h.vertices.not_spent_nextHandle, get?_insert_same _ _⟩
  · simp [hnone]
  · simp [hnew]
  · simp [hnone]
  · simp [hnew]
  · simp [hnew, hnext, withVertex]

lemma issues_addWire (first last : NodeKind) (kind : WireKind) : (Call.addWire first last kind).Issues vs es g := by
  obtain ⟨hnext, hissue, -⟩ := Call.of_ok (run_addWire h first last kind)
  have hfirst := h.withVertex first none
  have hlast := get?_nextHandle hfirst.vertices.valid
  have hinput : (g.withVertex first none).vertices.get? g.vertices.nextHandle = some ⟨first, none, g.nextSequence⟩ :=
    get?_insert_same _ _
  have hne : g.vertices.nextHandle ≠ (g.withVertex first none).vertices.nextHandle := by
    intro heq
    rw [← heq, hinput] at hlast
    cases hlast
  have hnew : (Call.addWire first last kind).newVertices g = [(g.vertices.nextHandle, ⟨first, none, g.nextSequence⟩),
        ((g.withVertex first none).vertices.nextHandle, ⟨last, none, g.nextSequence + 1⟩)] := by
    rw [Call.newVertices, hissue]
  have hnone : (Call.addWire first last kind).newEdges g = [] := by rw [Call.newEdges, hissue]
  constructor
  · simp [hnew, Call.contents]
  · simp [hnone]
  · simp only [hnew, forall_mem_cons, hnext]
    refine ⟨⟨get?_nextHandle h.vertices.valid, h.vertices.not_spent_nextHandle, ?_⟩, ⟨?_, ?_, ?_⟩, by simp⟩
    · exact get?_withVertex_of_some hfirst.valid hinput
    · rw [← hlast]
      exact (get?_insert_other _ hne.symm _).symm
    · exact hfirst.vertices.not_spent_nextHandle
    · exact get?_insert_same _ _
  · simp [hnone]
  · simp [hnew, hne]
  · simp [hnone]
  · simp [hnew]
  · simp only [hnew, forall_mem_cons, hnext, withWire, withVertex, withLink]
    exact ⟨by omega, by omega, by simp⟩

lemma issues_addLink (l : Link) : (Call.addLink l).Issues vs es g := by
  by_cases hlive : g.Live l.source.vertex ∧ g.Live l.target.vertex
  · obtain ⟨hnext, hissue, -⟩ := Call.of_ok (run_addLink hlive.1 hlive.2)
    have hnew : (Call.addLink l).newEdges g = [(g.edges.nextHandle, l)] := by rw [Call.newEdges, hissue]
    have hnone : (Call.addLink l).newVertices g = [] := by rw [Call.newVertices, hissue]
    constructor
    · simp [hnone, Call.contents]
    · simp [hnew]
    · simp [hnone]
    · simp only [hnew, forall_mem_singleton, hnext]
      exact ⟨get?_nextHandle h.edges.valid, h.edges.not_spent_nextHandle, get?_insert_same _ _⟩
    · simp [hnone]
    · simp [hnew]
    · simp [hnone]
    · simp [hnone]
  · obtain ⟨cause, herror⟩ := addLink_of_not_live hlive
    have hrun : (Call.addLink l).run g = .error cause g := by rw [Call.run, bind_error herror]
    exact .of_empty (Call.of_error hrun).2.1 rfl

lemma Call.issues (call : Call) : call.Issues vs es g := by
  cases call with
  | addVertex kind og => exact issues_addVertex h kind og
  | addWire first last kind => exact issues_addWire h first last kind
  | addLink l => exact issues_addLink h l
  | removeEdge e => exact .of_empty (issue_of_quiet rfl) rfl
  | removeVertex v rewiring deletion => exact .of_empty (issue_of_quiet rfl) rfl
  | isolate v => exact .of_empty (issue_of_quiet rfl) rfl
  | setKind v kind => exact .of_empty (issue_of_quiet rfl) rfl
  | setOpgroup v og => exact .of_empty (issue_of_quiet rfl) rfl

end Issues

/-! ## Whole runs -/

/-- The graph after calls one after the other. -/
def perform (g : Graph) (calls : List Call) : Graph := calls.foldl (fun g call => call.next g) g

/-- What the calls give by `f`, in order. -/
def along {β : Type} (f : Call → Graph → List β) : Graph → List Call → List β
  | _, [] => []
  | g, call :: rest => f call g ++ along f (call.next g) rest

/-- One of the calls is as `P` says, on the graph that it finds. -/
def Sometime (P : Call → Graph → Prop) : Graph → List Call → Prop
  | _, [] => False
  | g, call :: rest => P call g ∨ Sometime P (call.next g) rest

@[simp] lemma perform_cons : g.perform (call :: calls) = (call.next g).perform calls := rfl

lemma perform_append (before after : List Call) : g.perform (before ++ after) = (g.perform before).perform after :=
  foldl_append

lemma along_append {β : Type} (f : Call → Graph → List β) (before after : List Call) :
    along f g (before ++ after) = along f g before ++ along f (g.perform before) after := by
  induction before generalizing g with
  | nil => rfl
  | cons call rest ih => simp [along, ih]

/-! ### Both stores alike -/

/-- **One of the two stores of a graph**, with what calls free in it and hand out from it, which calls end a handle, and
    what the others make of what it names. -/
structure Side (α : Type) where
  store : Graph → SlotStore α
  freed : Call → Graph → List (Handle α)
  new : Call → Graph → List (Handle α × α)
  Ends : Handle α → Call → Graph → Prop
  touch : Handle α → α → Call → α
  /-- The graph keeps count of what was freed. -/
  Keeps : List (Handle α) → Graph → Prop
  counted : ∀ {fs g}, Keeps fs g → (store g).Counted fs
  step : ∀ {fs g}, Keeps fs g → ∀ call, Keeps (fs ++ freed call g) (call.next g)
  ended : ∀ {fs g call h x}, Keeps fs g → (store g).get? h = some x → Ends h call g → h ∈ freed call g
  kept : ∀ {fs g call h x}, Keeps fs g → (store g).get? h = some x → ¬ Ends h call g →
    (store (call.next g)).get? h = some (touch h x call)
  fresh : ∀ {fs g call}, Keeps fs g → ∀ p ∈ new call g,
    (store g).get? p.1 = none ∧ (FreedSeldom fs → ¬ Spent fs p.1) ∧ (store (call.next g)).get? p.1 = some p.2
  nodup : ∀ {fs g call}, Keeps fs g → ((new call g).map Prod.fst).Nodup

namespace Side

variable {α : Type} (S : Side α) {fs : List (Handle α)} {h : Handle α} {x : α}

lemma perform (hg : S.Keeps fs g) : S.Keeps (fs ++ along S.freed g calls) (g.perform calls) := by
  induction calls generalizing g fs with
  | nil =>
    rw [along, append_nil]
    exact hg
  | cons call rest ih =>
    rw [along, ← append_assoc]
    exact ih (S.step hg call)

variable (hg : S.Keeps fs g) (hb : FreedSeldom (fs ++ along S.freed g calls))

include hg hb in
lemma get?_perform_of_spent (hh : Spent fs h) : (S.store (g.perform calls)).get? h = none :=
  (S.counted (S.perform hg)).get?_of_spent hb hh.append

include hg hb in
lemma named (hx : (S.store g).get? h = some x) : (¬ Sometime (S.Ends h) g calls →
        (S.store (g.perform calls)).get? h = some (calls.foldl (S.touch h) x)) ∧
      (Sometime (S.Ends h) g calls → (S.store (g.perform calls)).get? h = none) := by
  induction calls generalizing g fs x with
  | nil => exact ⟨fun _ => hx, False.elim⟩
  | cons call rest ih =>
    rw [along, ← append_assoc] at hb
    have hfs : FreedSeldom fs := hb.of_append.of_append
    have hnext := S.step hg call
    by_cases hends : S.Ends h call g
    · refine ⟨fun hnever => absurd (.inl hends) hnever, fun _ => ?_⟩
      have hspent := (S.counted hg).spent_of_mem hfs hx (S.ended hg hx hends)
      rw [perform_cons]
      exact S.get?_perform_of_spent hnext hb hspent
    · obtain ⟨hkept, hended⟩ := ih hnext hb (S.kept hg hx hends)
      exact ⟨fun hnever => hkept fun hrest => hnever (.inr hrest), fun hever => hended (hever.resolve_left hends)⟩

/-- **The fate of a handle**: from the call that hands it out to the one that ends it. -/
theorem named_of_new {before after : List Call} (hg : S.Keeps fs g)
    (hb : FreedSeldom (fs ++ along S.freed g (before ++ call :: after)))
    (hnew : (h, x) ∈ S.new call (g.perform before)) :
    (¬ Sometime (S.Ends h) (g.perform (before ++ [call])) after →
        (S.store (g.perform (before ++ call :: after))).get? h = some (after.foldl (S.touch h) x)) ∧
      (Sometime (S.Ends h) (g.perform (before ++ [call])) after →
        (S.store (g.perform (before ++ call :: after))).get? h = none) := by
  have hbefore : S.Keeps (fs ++ along S.freed g before) (g.perform before) := S.perform hg
  rw [along_append, along, ← append_assoc, ← append_assoc] at hb
  rw [perform_append, perform_append]
  exact S.named (S.step hbefore call) hb (S.fresh hbefore _ hnew).2.2

include hg hb in
/-- **No handle is handed out twice**: what is handed out is neither there nor spent. -/
theorem nodup_along : ((along S.new g calls).map Prod.fst).Nodup ∧
      ∀ p ∈ along S.new g calls, (S.store g).get? p.1 = none ∧ ¬ Spent fs p.1 := by
  induction calls generalizing g fs with
  | nil => simp [along]
  | cons call rest ih =>
    rw [along, ← append_assoc] at hb
    have hfs : FreedSeldom fs := hb.of_append.of_append
    obtain ⟨hnodup, hlater⟩ := ih (S.step hg call) hb
    -- what is there or spent now is so after the call, so it is not handed out later
    have hold : ∀ p ∈ along S.new (call.next g) rest, (S.store g).get? p.1 = none ∧ ¬ Spent fs p.1 := by
      intro p hp
      obtain ⟨hnone, hspent⟩ := hlater p hp
      refine ⟨?_, fun hs => hspent hs.append⟩
      cases hx : (S.store g).get? p.1 with
      | none => rfl
      | some x =>
        by_cases hends : S.Ends p.1 call g
        · exact absurd ((S.counted hg).spent_of_mem hfs hx (S.ended hg hx hends)) hspent
        · cases hnone.symm.trans (S.kept hg hx hends)
    refine ⟨?_, fun p hp => ?_⟩
    · rw [along, map_append, nodup_append]
      refine ⟨S.nodup hg, hnodup, ?_⟩
      intro h hh h' hh' heq
      obtain ⟨p, hp, rfl⟩ := mem_map.mp hh
      obtain ⟨q, hq, rfl⟩ := mem_map.mp hh'
      have hnamed := (S.fresh hg p hp).2.2
      rw [heq, (hlater q hq).1] at hnamed
      cases hnamed
    · rcases mem_append.mp hp with hp | hp
      · exact ⟨(S.fresh hg p hp).1, (S.fresh hg p hp).2.1 hfs⟩
      · exact hold p hp

end Side

def vertexSide : Side Node where
  store := Graph.vertices
  freed := Call.freedVertices
  new := Call.newVertices
  Ends v call g := call.Deletes g v
  touch := Call.touch
  Keeps fs g := ∃ es, g.Counted fs es
  counted := by
    rintro fs g ⟨es, h⟩
    exact h.vertices
  step := by
    rintro fs g ⟨es, h⟩ call
    exact ⟨_, (Call.steps h call).counted⟩
  ended := by
    rintro fs g call v n ⟨es, h⟩
    exact (Call.steps h call).vertex_ended
  kept := by
    rintro fs g call v n ⟨es, h⟩
    exact (Call.steps h call).vertex_kept
  fresh := by
    rintro fs g call ⟨es, h⟩
    exact (Call.issues h call).vertex_new
  nodup := by
    rintro fs g call ⟨es, h⟩
    exact (Call.issues h call).vertices_nodup

def edgeSide : Side Link where
  store := Graph.edges
  freed := Call.freedEdges
  new := Call.newEdges
  Ends e call g := call.Cuts g e
  touch _ l _ := l
  Keeps fs g := ∃ vs, g.Counted vs fs
  counted := by
    rintro fs g ⟨vs, h⟩
    exact h.edges
  step := by
    rintro fs g ⟨vs, h⟩ call
    exact ⟨_, (Call.steps h call).counted⟩
  ended := by
    rintro fs g call e l ⟨vs, h⟩
    exact (Call.steps h call).edge_ended
  kept := by
    rintro fs g call e l ⟨vs, h⟩
    exact (Call.steps h call).edge_kept
  fresh := by
    rintro fs g call ⟨vs, h⟩
    exact (Call.issues h call).edge_new
  nodup := by
    rintro fs g call ⟨vs, h⟩
    exact (Call.issues h call).edges_nodup

lemma sequences_along (h : g.Counted vs es) : ((along Call.newVertices g calls).map fun p => p.2.sequence).Pairwise (· < ·) ∧
      ∀ p ∈ along Call.newVertices g calls, g.nextSequence ≤ p.2.sequence := by
  induction calls generalizing g vs es with
  | nil => simp [along]
  | cons call rest ih =>
    have hissues := Call.issues h call
    have hsteps := Call.steps h call
    obtain ⟨hrest, hlater⟩ := ih hsteps.counted
    refine ⟨?_, fun p hp => ?_⟩
    · rw [along, map_append, pairwise_append]
      refine ⟨hissues.sequences, hrest, ?_⟩
      intro i hi j hj
      obtain ⟨p, hp, rfl⟩ := mem_map.mp hi
      obtain ⟨q, hq, rfl⟩ := mem_map.mp hj
      have hlow := (hissues.between p hp).2
      have hhigh := hlater q hq
      omega
    · rcases mem_append.mp hp with hp | hp
      · exact (hissues.between p hp).1
      · have hhigh := hlater p hp
        have hmore := hsteps.later
        omega

lemma Call.sequence_touch (v : Vertex) (n : Node) (call : Call) : (call.touch v n).sequence = n.sequence := by
  cases call with
  | setKind w kind =>
    rw [touch]
    split <;> rfl
  | setOpgroup w og =>
    rw [touch]
    split <;> rfl
  | _ => rfl

lemma sequence_foldl_touch (v : Vertex) (n : Node) (calls : List Call) :
    (calls.foldl (fun n call => call.touch v n) n).sequence = n.sequence := by
  induction calls generalizing n with
  | nil => rfl
  | cons call rest ih => rw [foldl_cons, ih, Call.sequence_touch]

/-- **Handles keep their meaning over the calls.** A handle that a call hands out names what it was handed out for, with
    what was set at it since, up to the first call that ends it, and nothing afterwards. -/
structure HandlesHold (calls : List Call) : Prop where
  /-- No vertex is handed out twice. -/
  vertices_nodup : ((along Call.newVertices {} calls).map Prod.fst).Nodup
  /-- No edge is handed out twice. -/
  edges_nodup : ((along Call.newEdges {} calls).map Prod.fst).Nodup
  /-- Sequence numbers go up in the order in which vertices are made. -/
  sequences : ((along Call.newVertices {} calls).map fun p => p.2.sequence).Pairwise (· < ·)
  contents : ∀ {before call after}, calls = before ++ call :: after →
    (call.newVertices (perform {} before)).map (fun p => (p.2.kind, p.2.opgroup)) = call.contents
  link : ∀ {before call after}, calls = before ++ call :: after → ∀ p ∈ call.newEdges (perform {} before), call = .addLink p.2
  vertex_named : ∀ {before call after v n}, calls = before ++ call :: after → (v, n) ∈ call.newVertices (perform {} before) →
    ¬ Sometime (fun call g => call.Deletes g v) (perform {} (before ++ [call])) after →
    ∃ m, (perform {} calls).vertices.get? v = some m ∧ m.sequence = n.sequence ∧
      m = after.foldl (fun n call => call.touch v n) n
  vertex_ended : ∀ {before call after v n}, calls = before ++ call :: after → (v, n) ∈ call.newVertices (perform {} before) →
    Sometime (fun call g => call.Deletes g v) (perform {} (before ++ [call])) after → ¬ (perform {} calls).Live v
  edge_named : ∀ {before call after e l}, calls = before ++ call :: after → (e, l) ∈ call.newEdges (perform {} before) →
    ¬ Sometime (fun call g => call.Cuts g e) (perform {} (before ++ [call])) after →
    (perform {} calls).edges.get? e = some l
  edge_ended : ∀ {before call after e l}, calls = before ++ call :: after → (e, l) ∈ call.newEdges (perform {} before) →
    Sometime (fun call g => call.Cuts g e) (perform {} (before ++ [call])) after →
    (perform {} calls).edges.get? e = none

/-! # `Graph.topologicalOrder` — every vertex in its turn -/

variable {u w : Vertex} {before : List (Vertex × Vertex)} {left done rest order : List Vertex} {n : ℕ}

/-! ## Turns -/

/-- A vertex that can come next after `done`: all that it has to come after is listed, and it is not. -/
structure Next (g : Graph) (done : List Vertex) (v : Vertex) : Prop where
  live : g.Live v
  unlisted : v ∉ done
  after : ∀ u, g.Precedes u v → u ∈ done

/-- **A list is the topological order of a graph.** -/
structure IsOrder (g : Graph) (order : List Vertex) : Prop where
  nodup : order.Nodup
  mem_iff : ∀ v, v ∈ order ↔ g.Live v
  links : ∀ l, g.HasLink l → [l.source.vertex, l.target.vertex].Sublist order
  hazards : ∀ reader writer, (reader, writer) ∈ g.hazards → [reader, writer].Sublist order
  /-- Of the vertices that can come next, none was made before the one that does. -/
  turn : ∀ done v rest, order = done ++ v :: rest → g.Next done v ∧ ∀ w, g.Next done w → ¬ g.MadeBefore w v

lemma walkFor_least {r : Vertex → Vertex → Prop} (hsorted : left.Pairwise r) (hnodup : left.Nodup)
    (hwalk : walkFor before n left = done ++ v :: rest) (hw : w ∈ left) (hunlisted : w ∉ done)
    (hafter : ∀ u, (u, w) ∈ before → u ∈ left → u ∈ done) : w = v ∨ r v w := by
  induction n generalizing left done with
  | zero => simp [walkFor] at hwalk
  | succ n ih =>
    rw [walkFor] at hwalk
    split at hwalk
    · next x hx =>
      cases done with
      | nil =>
        obtain ⟨rfl, _⟩ := cons.inj hwalk
        obtain ⟨_, as, bs, rfl, has⟩ := find?_eq_some_iff_append.mp hx
        have hready := isReady_iff.mpr fun u hu hmem => not_mem_nil (hafter u hu hmem)
        -- nothing in front of `x` is ready, so `w` is `x` or comes later
        rcases mem_append.mp hw with hmem | hmem
        · have hnot := has w hmem
          rw [hready] at hnot
          cases hnot
        · rcases mem_cons.mp hmem with heq | hmem
          · exact .inl heq
          · exact .inr (rel_of_pairwise_cons (pairwise_append.mp hsorted).2.1 hmem)
      | cons y done =>
        obtain ⟨rfl, hrest⟩ := cons.inj hwalk
        obtain ⟨hwx, hunlisted⟩ := ne_and_not_mem_of_not_mem_cons hunlisted
        refine ih (hsorted.sublist erase_sublist) (hnodup.erase x) hrest
          ((mem_erase_of_ne hwx).mpr hw) hunlisted fun u hu hmem => ?_
        obtain ⟨hux, hmem⟩ := (hnodup.mem_erase_iff).mp hmem
        exact (mem_cons.mp (hafter u hu hmem)).resolve_left hux
    · simp at hwalk

/-! ## Walks are orders -/

lemma next_of_walk (hg : g.Valid) (hwalk : g.walk = done ++ v :: rest) : g.Next done v where
  live := (mem_map_bySequence hg).mp (walkFor_subset (hwalk ▸ mem_append_cons_self))
  unlisted := by
    have hnodup := nodup_walk hg
    rw [hwalk] at hnodup
    exact fun hv => (nodup_append.mp hnodup).2.2 v hv v mem_cons_self rfl
  after _ hu := walk_after_of_precedes hg hwalk hu

lemma not_madeBefore_of_walk (hg : g.Valid) (hwalk : g.walk = done ++ v :: rest) (hw : g.Next done w) :
    ¬ g.MadeBefore w v := by
  rcases walkFor_least (pairwise_bySequence hg) (nodup_bySequence hg) hwalk ((mem_map_bySequence hg).mpr hw.live)
    hw.unlisted fun u hu _ => hw.after u hu with rfl | hnot
  · exact fun hmade => hmade.ne rfl
  · exact hnot

lemma sublist_of_precedes (hg : g.Valid) (hall : ∀ v, g.Live v → v ∈ g.walk) (hvw : g.Precedes v w) :
    [v, w].Sublist g.walk := by
  obtain ⟨_, _, hwalk⟩ := append_of_mem (hall w (live_of_precedes hg hvw).2)
  have hv := walk_after_of_precedes hg hwalk hvw
  rw [hwalk]
  exact (singleton_sublist.mpr hv).append (singleton_sublist.mpr mem_cons_self)

lemma isOrder_of_ok (hg : g.Valid) (hok : g.topologicalOrder = .ok order) : g.IsOrder order := by
  have hirrefl := (topologicalOrder_isOk_iff_irrefl hg).mp ⟨order, hok⟩
  have hmem : ∀ v, v ∈ g.walk ↔ g.Live v := fun v =>
    (walk_perm_of_irrefl hg hirrefl).mem_iff.trans (mem_map_bySequence hg)
  have hall : ∀ v, g.Live v → v ∈ g.walk := fun v => (hmem v).mpr
  rw [topologicalOrder_eq_ok hok]
  refine ⟨nodup_walk hg, hmem, fun l hl => ?_, fun v w hvw => ?_, fun done v rest hwalk => ?_⟩
  · exact sublist_of_precedes hg hall (mem_append_left _ ((mem_linkPairs hg).mpr ⟨l, hl, rfl, rfl⟩))
  · exact sublist_of_precedes hg hall (mem_append_right _ hvw)
  · exact ⟨next_of_walk hg hwalk, fun w hw => not_madeBefore_of_walk hg hwalk hw⟩

/-! ## All graphs -/

lemma valid_perform (calls : List Call) : (perform {} calls).Valid := by
  have hstart : vertexSide.Keeps [] {} := ⟨[], counted_empty⟩
  have hkept : vertexSide.Keeps ([] ++ along vertexSide.freed {} calls) (perform {} calls) := vertexSide.perform hstart
  obtain ⟨_, hcounted⟩ := hkept
  exact hcounted.valid

end Graph

end Wireloom
