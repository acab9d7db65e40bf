import Wireloom.Proofs.Seams

/-!
# `Circuit.Equivalent`, `Circuit.Mirrors` — edits of equivalent circuits

An edit of a circuit is mirrored by an edit of an equivalent one if the second succeeds where the first does, and the
results are equivalent again (`Mirrors`). Vertices that stay are matched as before.
-/

namespace Wireloom

namespace Graph

variable {g : Graph} {v w : Vertex}

/-! ## The order in which vertices were made -/

lemma madeBefore_total (hn : g.Numbered) (hv : g.Live v) (hw : g.Live w) (hne : v ≠ w) :
    g.MadeBefore v w ∨ g.MadeBefore w v := by
  obtain ⟨n, hv⟩ := live_iff.mp hv
  obtain ⟨m, hw⟩ := live_iff.mp hw
  rcases Nat.lt_trichotomy n.sequence m.sequence with hlt | heq | hlt
  · exact .inl ⟨n, m, hv, hw, hlt⟩
  · exact absurd (hn.distinct hv hw heq) hne
  · exact .inr ⟨m, n, hw, hv, hlt⟩

lemma pairwise_made (hg : g.Valid) (hn : g.Numbered) : (g.bySequence.map Prod.fst).Pairwise g.MadeBefore := by
  refine ((pairwise_bySequence hg).and (nodup_bySequence hg)).imp_of_mem fun hv hw h => ?_
  exact (madeBefore_total hn ((mem_map_bySequence hg).mp hv) ((mem_map_bySequence hg).mp hw) h.2).resolve_right h.1

lemma made_eq (hg : g.Valid) (hn : g.Numbered) {l : List Vertex} (hmem : ∀ v, v ∈ l ↔ g.Live v)
    (hl : l.Pairwise g.MadeBefore) : g.bySequence.map Prod.fst = l := by
  have hnodup : l.Nodup := hl.imp fun h => h.ne
  refine List.Perm.eq_of_pairwise (fun v w _ _ hvw hwv => absurd hwv hvw.asymm) (pairwise_made hg hn) hl ?_
  exact (List.perm_ext_iff_of_nodup (nodup_bySequence hg) hnodup).mpr fun v => by
    rw [mem_map_bySequence hg, hmem]

lemma made_filter {g' : Graph} (hg : g.Valid) (hn : g.Numbered) (hg' : g'.Valid) (hn' : g'.Numbered)
    (h : ∀ {v n'}, g'.vertices.get? v = some n' → ∃ n, g.vertices.get? v = some n ∧ n.sequence = n'.sequence) :
    g'.bySequence.map Prod.fst = (g.bySequence.map Prod.fst).filter fun v => g'.vertices.contains v := by
  refine made_eq hg' hn' (fun v => ?_) ?_
  · rw [List.mem_filter, mem_map_bySequence hg]
    refine ⟨fun hv => hv.2, fun hv => ⟨?_, hv⟩⟩
    obtain ⟨n', hn'⟩ := live_iff.mp hv
    obtain ⟨n, hn, _⟩ := h hn'
    exact live_of_get? hn
  · refine ((pairwise_made hg hn).filter _).imp_of_mem fun {v w} hv hw hvw => ?_
    obtain ⟨n', hn'⟩ := live_iff.mp (List.mem_filter.mp hv).2
    obtain ⟨m', hm'⟩ := live_iff.mp (List.mem_filter.mp hw).2
    obtain ⟨n, hn, _⟩ := h hn'
    obtain ⟨m, hm, _⟩ := h hm'
    obtain ⟨_, _, hn0, hm0, _⟩ := hvw
    cases Option.some.inj (hn.symm.trans hn0)
    cases Option.some.inj (hm.symm.trans hm0)
    exact ⟨n', m', hn', hm', by omega⟩

end Graph

namespace Circuit

open Wireloom.Graph List Option

variable {c c' d d' : Circuit} {unit unit' : Pin → UnitId} {ι κ : Vertex → Vertex} {u : UnitId} {v w : Vertex}
  {l m : Link} {k : NodeKind} {n : Node}

/-! ## Equivalent circuits -/

/-- A circuit as calls make them: well-formed, with a number of its own for every vertex. -/
structure Sound (c : Circuit) : Prop where
  wellFormed : c.WellFormed
  numbered : c.graph.Numbered

lemma Reachable.sound (h : Reachable c) : c.Sound := ⟨h.coherent.wellFormed, h.numbered⟩

/-- **Two circuits are equivalent**: `ι` matches their live vertices one to one, with the same contents and opgroups, the
    same links between the same pins, the same ends of units and the same order in which they were made; and the
    circuits have the same phase, name and opgroups. -/
structure Equivalent (ι : Vertex → Vertex) (c c' : Circuit) : Prop extends Corresponds id ι c c' where
  sound : c.Sound
  sound' : c'.Sound
  order : ∀ {v w}, c.graph.Live v → c.graph.Live w → (c'.graph.MadeBefore (ι v) (ι w) ↔ c.graph.MadeBefore v w)
  phase : c'.phase = c.phase
  name : c'.name = c.name
  opgroups : c'.opgroups = c.opgroups

/-- **Equivalence from the lists of vertices.** It is enough to follow the contents and the links of one circuit. -/
theorem Equivalent.of_made (hs : d.Sound) (hs' : d'.Sound)
    (made : d'.graph.bySequence.map Prod.fst = (d.graph.bySequence.map Prod.fst).map κ)
    (node : ∀ {v n}, d.graph.vertices.get? v = some n →
      ∃ n', d'.graph.vertices.get? (κ v) = some n' ∧ n'.kind = n.kind ∧ n'.opgroup = n.opgroup)
    (link : ∀ l, d.graph.HasLink l → d'.graph.HasLink (l.map κ))
    (boundary : ∀ u, d'.boundary.get? u = (d.boundary.get? u).map (Ends.map κ)) (phase : d'.phase = d.phase)
    (name : d'.name = d.name) (opgroups : d'.opgroups = d.opgroups) : Equivalent κ d d' := by
  have hvalid := hs.wellFormed.valid
  have hvalid' := hs'.wellFormed.valid
  have hnodup := nodup_bySequence hvalid'
  rw [made] at hnodup
  have hinj : ∀ {v w}, d.graph.Live v → d.graph.Live w → κ v = κ w → v = w := fun hv hw heq =>
    inj_on_of_nodup_map hnodup ((mem_map_bySequence hvalid).mpr hv) ((mem_map_bySequence hvalid).mpr hw) heq
  have hsurj : ∀ {w}, d'.graph.Live w → ∃ v, d.graph.Live v ∧ κ v = w := by
    intro w hw
    have hmem := (mem_map_bySequence hvalid').mpr hw
    rw [made] at hmem
    obtain ⟨v, hv, rfl⟩ := mem_map.mp hmem
    exact ⟨v, (mem_map_bySequence hvalid).mp hv, rfl⟩
  have hcorresponds : Corresponds id κ d d' := .of_links hs.wellFormed.wired hs'.wellFormed.wired (fun _ => rfl) hinj hsurj
    (fun hn => by simpa using node hn) link boundary
  -- both lists run through matched vertices in the same order
  have hmade' := pairwise_made hvalid' hs'.numbered
  rw [made] at hmade'
  have hsame : ∀ {v w}, d.graph.MadeBefore v w → d'.graph.MadeBefore (κ v) (κ w) :=
    madeBefore_of_pairwise hvalid (pairwise_map.mp hmade')
  refine { hcorresponds with sound := hs, sound' := hs', phase, name, opgroups, order := fun {v w} hv hw => ?_ }
  refine ⟨fun hvw => ?_, hsame⟩
  rcases madeBefore_total hs.numbered hv hw fun heq => hvw.ne (congrArg κ heq) with hbefore | hafter
  · exact hbefore
  · exact absurd (hsame hafter) hvw.asymm

namespace Equivalent

lemma refl (h : c.Sound) : Equivalent id c c :=
  .of_made h h (map_id _).symm (fun {_ n} hn => ⟨n, hn, rfl, rfl⟩) (fun _ hl => hl)
    (fun u => by cases c.boundary.get? u <;> rfl) rfl rfl rfl

variable (h : Equivalent ι c c')
include h

lemma made : c'.graph.bySequence.map Prod.fst = (c.graph.bySequence.map Prod.fst).map ι := by
  have hlive : ∀ {v}, v ∈ c.graph.bySequence.map Prod.fst → c.graph.Live v :=
    (mem_map_bySequence h.sound.wellFormed.valid).mp
  refine made_eq h.sound'.wellFormed.valid h.sound'.numbered (fun w => ?_) ?_
  · constructor
    · intro hw
      obtain ⟨v, hv, rfl⟩ := mem_map.mp hw
      exact h.live (hlive hv)
    · intro hw
      obtain ⟨v, hv, rfl⟩ := h.surjective hw
      exact mem_map_of_mem ((mem_map_bySequence h.sound.wellFormed.valid).mpr hv)
  · refine pairwise_map.mpr ((pairwise_made h.sound.wellFormed.valid h.sound.numbered).imp_of_mem ?_)
    intro v w hv hw hvw
    exact (h.order (hlive hv) (hlive hw)).mpr hvw

lemma commands_eq : c'.commands = c.commands.map (Command.move id ι) :=
  h.toCorresponds.commands_eq h.sound.wellFormed h.sound'.wellFormed (fun _ => rfl) h.made

lemma valid : c.graph.Valid := h.sound.wellFormed.valid

lemma valid' : c'.graph.Valid := h.sound'.wellFormed.valid

lemma kind?_eq (hv : c.graph.Live v) : c'.graph.kind? (ι v) = c.graph.kind? v := by
  obtain ⟨k, hk⟩ := live_iff_kind?.mp hv
  rw [h.kind hk, hk, NodeKind.mapOp_id]

lemma node_eq (hn : c.graph.vertices.get? v = some n) :
    ∃ n', c'.graph.vertices.get? (ι v) = some n' ∧ n'.kind = n.kind ∧ n'.opgroup = n.opgroup := by
  obtain ⟨n', hn', hkind, hog⟩ := h.node hn
  exact ⟨n', hn', hkind.trans (NodeKind.mapOp_id _), hog⟩

lemma live_iff (hv : c.graph.Live v) (hw : c.graph.Live w) : ι v = ι w ↔ v = w := ⟨h.injective hv hw, congrArg ι⟩

lemma hasLink (hl : c.graph.HasLink l) : c'.graph.HasLink (l.map ι) := (h.link _).mpr ⟨l, hl, rfl⟩

lemma ends_eq {ends : Ends} (hu : c.boundary.get? u = some ends) : c'.boundary.get? u = some (ends.map ι) := by
  rw [h.boundary, hu]
  rfl

lemma exists_ends {ends' : Ends} (hu : c'.boundary.get? u = some ends') :
    ∃ ends, c.boundary.get? u = some ends ∧ ends' = ends.map ι := by
  rw [h.boundary] at hu
  obtain ⟨ends, hends, rfl⟩ := map_eq_some_iff.mp hu
  exact ⟨ends, hends, rfl⟩

/-! ## The other way round -/

lemma symm : ∃ ι', Equivalent ι' c' c ∧ (∀ v, c.graph.Live v → ι' (ι v) = v) ∧ ∀ w, c'.graph.Live w → ι (ι' w) = w := by
  obtain ⟨back, hback⟩ := exists_factor h.injective id
  refine ⟨back, .of_made h.sound' h.sound ?_ (fun {w n'} hn' => ?_) (fun m hm => ?_) (fun u => ?_) h.phase.symm h.name.symm
    h.opgroups.symm, hback, fun w hw => ?_⟩
  · rw [h.made, List.map_map]
    refine (map_id _).symm.trans (map_congr_left fun v hv => ?_)
    exact (hback v ((mem_map_bySequence h.sound.wellFormed.valid).mp hv)).symm
  · obtain ⟨v, hv, rfl⟩ := h.surjective (live_of_get? hn')
    obtain ⟨n, hn⟩ := Graph.live_iff.mp hv
    obtain ⟨_, hn1, hkind, hog⟩ := h.node_eq hn
    cases mem_unique hn' hn1
    exact ⟨n, by rw [hback v hv, id, hn], hkind.symm, hog.symm⟩
  · obtain ⟨l, hl, rfl⟩ := (h.link m).mp hm
    have hsource := hback _ (h.sound.wellFormed.valid.source_live hl)
    have htarget := hback _ (h.sound.wellFormed.valid.target_live hl)
    have heq : (l.map ι).map back = l := by
      show (⟨⟨back (ι l.source.vertex), l.source.index⟩, ⟨back (ι l.target.vertex), l.target.index⟩, l.kind⟩ : Link) = l
      rw [hsource, htarget]
      rfl
    rw [heq]
    exact hl
  · rw [h.boundary]
    cases hu : c.boundary.get? u with
    | none => rfl
    | some ends =>
      show some ends = some ⟨back (ι ends.input), back (ι ends.output)⟩
      rw [hback _ (h.sound.wellFormed.live_input hu), hback _ (h.sound.wellFormed.live_output hu)]
      rfl
  · obtain ⟨v, hv, rfl⟩ := h.surjective hw
    rw [hback v hv]
    rfl

end Equivalent

end Circuit

/-! # `Circuit.Mirrors` -/

lemma Link.map_congr {ι κ : Vertex → Vertex} {l : Link} (hs : κ l.source.vertex = ι l.source.vertex)
    (ht : κ l.target.vertex = ι l.target.vertex) : l.map κ = l.map ι := by
  unfold Link.map Pin.map
  rw [hs, ht]

namespace Net

variable {N N' M M' : Net} {P : Vertex → Prop} {κ : Vertex → Vertex} {v : Vertex}

/-- **All links of `N` are there in `M`, with their ends moved.** They run between vertices of `P`. -/
structure Carries (P : Vertex → Prop) (κ : Vertex → Vertex) (N M : Net) : Prop where
  ends : ∀ {l}, N.link l → P l.source.vertex ∧ P l.target.vertex
  link : ∀ {l}, N.link l → M.link (l.map κ)

lemma Carries.splice (h : Carries P κ N M) (hκ : ∀ {v w}, P v → P w → κ v = κ w → v = w) (hv : P v)
    (hN : N.IsSplice v N') (hM : M.IsSplice (κ v) M') : Carries P κ N' M' where
  ends {m} hm := by
    rcases (hN.link m).mp hm with ⟨hm, _⟩ | ⟨a, ha, _, _, b, hb, _, hs, ht, _⟩
    · exact h.ends hm
    · rw [hs, ht]
      exact ⟨(h.ends ha).1, (h.ends hb).2⟩
  link {m} hm := by
    refine (hM.link _).mpr ?_
    rcases (hN.link m).mp hm with ⟨hm, hs, ht⟩ | ⟨a, ha, hav, hlin, b, hb, hba, hs, ht, hkind⟩
    · exact .inl ⟨h.link hm, fun heq => hs (hκ (h.ends hm).1 hv heq), fun heq => ht (hκ (h.ends hm).2 hv heq)⟩
    · exact .inr ⟨a.map κ, h.link ha, congrArg κ hav, hlin, b.map κ, h.link hb, congrArg (Pin.map κ) hba,
        congrArg (Pin.map κ) hs, congrArg (Pin.map κ) ht, hkind⟩

end Net

namespace Circuit

open Wireloom.Graph SortedMap SlotStore List Option

variable {c c' d d' : Circuit} {ι κ : Vertex → Vertex} {u : UnitId} {v w : Vertex} {l m : Link} {k : NodeKind} {n : Node}
  {ends : Ends} {ρ : Renaming} {α : Type} {edit : Edit α} {wires : List (UnitId × Ends)}

/-! ## Mirrored edits -/

/-- **An edit of `c` is mirrored on `c'`**: where it succeeds, the other edit does so with the same answer, but for the
    vertices in it, and leaves an equivalent circuit. Vertices that stay are matched as before. -/
def Mirrors (ι : Vertex → Vertex) (c c' : Circuit) (move : (Vertex → Vertex) → α → α) (edit edit' : Edit α) : Prop :=
  ∀ a d, edit c = .ok a d → ∃ κ d', edit' c' = .ok (move κ a) d' ∧ Equivalent κ d d' ∧
    ∀ v, c.graph.Live v → d.graph.Live v → κ v = ι v

/-- **An edit that fails leaves the circuit as it was.** -/
def Atomic (edit : Edit α) (c : Circuit) : Prop := ∀ e d, edit c = .error e d → d = c

lemma Atomic.of_ok {a : α} (h : edit c = .ok a d) : Atomic edit c := by
  intro e d' herror
  rw [h] at herror
  cases herror

lemma Atomic.of_error {e : CircuitError} (h : edit c = .error e c) : Atomic edit c := by
  intro e' d' herror
  rw [h] at herror
  cases herror
  rfl

lemma sound_keeps (hw : Keeps WellFormed edit) (hn : Keeps (OnGraph Numbered) edit) :
    Keeps Sound edit := fun c a d h hrun => ⟨hw c a d h.wellFormed hrun, hn c a d h.numbered hrun⟩

variable (h : Equivalent ι c c')

include h in
lemma Equivalent.congr (hκ : ∀ v, c.graph.Live v → κ v = ι v) : Equivalent κ c c' := by
  refine .of_made h.sound h.sound' ?_ (fun {v n} hn => ?_) (fun l hl => ?_) (fun u => ?_) h.phase h.name h.opgroups
  · rw [h.made]
    exact map_congr_left fun v hv => (hκ v ((mem_map_bySequence h.valid).mp hv)).symm
  · rw [hκ v (live_of_get? hn)]
    exact h.node_eq hn
  · rw [Link.map_congr (hκ _ (h.valid.source_live hl)) (hκ _ (h.valid.target_live hl))]
    exact h.hasLink hl
  · rw [h.boundary]
    cases hu : c.boundary.get? u with
    | none => rfl
    | some ends =>
      have hin := h.sound.wellFormed.live_input hu
      have hout := h.sound.wellFormed.live_output hu
      show some (⟨ι ends.input, ι ends.output⟩ : Ends) = some ⟨κ ends.input, κ ends.output⟩
      rw [hκ _ hin, hκ _ hout]

/-! ## Units -/

lemma addUnit_cases (u : UnitId) (c : Circuit) : (c.hasUnit u = false ∧ c.Admits u ∧
    addUnit u c = .ok () (c.insertUnit u)) ∨ ∃ e, addUnit u c = .error e c := by
  have hget : (get : Edit Circuit) c = .ok c c := rfl
  cases hu : c.hasUnit u with
  | true =>
    right
    unfold addUnit
    rw [bind_ok hget, if_pos hu]
    exact ⟨_, rfl⟩
  | false =>
    cases hr : c.checkRegister u with
    | ok a => exact .inl ⟨rfl, checkRegister_iff.mp hr, addUnit_run hu (checkRegister_iff.mp hr)⟩
    | error e =>
      right
      unfold addUnit
      rw [bind_ok hget, if_neg (by rw [hu]; decide)]
      exact ⟨e, bind_error (ask_of_error hr)⟩

lemma addUnit_sound (u : UnitId) : Keeps Sound (addUnit u) :=
  sound_keeps (addUnit_keeps u) (addUnit_lasts lasting_numbered u)

lemma newEnds_not_live {g : Graph} (hg : g.Valid) (u : UnitId) :
    ¬ g.Live (newEnds g u).input ∧ ¬ g.Live (newEnds g u).output := by
  rw [live_iff_kind?, live_iff_kind?, newEnds_input_new hg, newEnds_output_new hg]
  simp

lemma made_insertUnit (h : c.Sound) (u : UnitId) : (c.insertUnit u).graph.bySequence.map Prod.fst =
    c.graph.bySequence.map Prod.fst ++ [(newEnds c.graph u).input, (newEnds c.graph u).output] := by
  have hvalid := h.wellFormed.valid
  have hseq := h.numbered.sequenced
  have hwire : (c.insertUnit u).graph.bySequence.map Prod.fst =
      ((c.graph.withVertex (.input u.kind.wire) none).withVertex (.output u.kind.wire) none).bySequence.map Prod.fst :=
    made_of_vertices rfl
  rw [hwire, made_withVertex (hvalid.withVertex _ _) hseq.withVertex, made_withVertex hvalid hseq, append_assoc]
  rfl

lemma get?_insertUnit (c : Circuit) (u : UnitId) (v : Vertex) : (c.insertUnit u).graph.vertices.get? v =
    if v = (newEnds c.graph u).output then some ⟨.output u.kind.wire, none, c.graph.nextSequence + 1⟩
    else if v = (newEnds c.graph u).input then some ⟨.input u.kind.wire, none, c.graph.nextSequence⟩
    else c.graph.vertices.get? v := by
  let g := c.graph.withVertex (.input u.kind.wire) none
  split
  · next hv =>
    rw [hv]
    exact get?_insert_same _ _
  · next hv =>
    refine (get?_insert_other g.vertices hv _).trans ?_
    split
    · next hv' =>
      rw [hv']
      exact get?_insert_same _ _
    · next hv' => exact get?_insert_other _ hv' _

lemma hasLink_insertUnit (h : c.Sound) (u : UnitId) (l : Link) : (c.insertUnit u).graph.HasLink l ↔
    c.graph.HasLink l ∨ l = ⟨⟨(newEnds c.graph u).input, 0⟩, ⟨(newEnds c.graph u).output, 0⟩, u.kind.wire⟩ :=
  (hasLink_withLink ((h.wellFormed.valid.withVertex (.input u.kind.wire) none).withVertex (.output u.kind.wire)
    none)).trans or_comm

lemma exists_match_newEnds (hg : c.graph.Valid) (u : UnitId) (ι : Vertex → Vertex) (ends : Ends) :
    ∃ κ : Vertex → Vertex, κ (newEnds c.graph u).input = ends.input ∧ κ (newEnds c.graph u).output = ends.output ∧
      ∀ v, c.graph.Live v → κ v = ι v := by
  obtain ⟨hin, hout⟩ := newEnds_not_live hg u
  refine ⟨Function.update (Function.update ι (newEnds c.graph u).input ends.input) (newEnds c.graph u).output ends.output,
    ?_, ?_, fun v hv => ?_⟩
  · simp [newEnds_ne hg u]
  · simp
  · have hvin : v ≠ (newEnds c.graph u).input := fun heq => hin (heq ▸ hv)
    have hvout : v ≠ (newEnds c.graph u).output := fun heq => hout (heq ▸ hv)
    simp [hvin, hvout]

/-- Circuits with one more unit are equivalent if the circuits are, and the ends of the unit are matched. -/
lemma Equivalent.insertUnit (h : Equivalent κ c c') (hs : (c.insertUnit u).Sound) (hs' : (c'.insertUnit u).Sound)
    (hin : κ (newEnds c.graph u).input = (newEnds c'.graph u).input)
    (hout : κ (newEnds c.graph u).output = (newEnds c'.graph u).output) :
    Equivalent κ (c.insertUnit u) (c'.insertUnit u) := by
  refine .of_made hs hs' ?_ (fun {v n} hn => ?_) (fun l hl => ?_) (fun w => ?_) h.phase h.name h.opgroups
  · rw [made_insertUnit h.sound, made_insertUnit h.sound', map_append, h.made]
    simp [hin, hout]
  · rw [get?_insertUnit] at hn
    rw [get?_insertUnit]
    split at hn
    · next hv =>
      cases hn
      refine ⟨⟨.output u.kind.wire, none, c'.graph.nextSequence + 1⟩, ?_, rfl, rfl⟩
      rw [hv, hout, if_pos rfl]
    · split at hn
      · next hv =>
        cases hn
        refine ⟨⟨.input u.kind.wire, none, c'.graph.nextSequence⟩, ?_, rfl, rfl⟩
        rw [hv, hin, if_neg (newEnds_ne h.valid' u), if_pos rfl]
      · obtain ⟨n', hn', hkind, hog⟩ := h.node_eq hn
        obtain ⟨hnin, hnout⟩ := newEnds_not_live h.valid' u
        have hlive' := live_of_get? hn'
        have hne : κ v ≠ (newEnds c'.graph u).output := fun heq => hnout (heq ▸ hlive')
        have hne' : κ v ≠ (newEnds c'.graph u).input := fun heq => hnin (heq ▸ hlive')
        exact ⟨n', by rw [if_neg hne, if_neg hne', hn'], hkind, hog⟩
  · rw [hasLink_insertUnit h.sound] at hl
    rw [hasLink_insertUnit h.sound']
    rcases hl with hl | rfl
    · exact .inl (h.hasLink hl)
    · right
      unfold Link.map Pin.map
      rw [hin, hout]
  · show (c'.boundary.insert u (newEnds c'.graph u)).get? w = ((c.boundary.insert u (newEnds c.graph u)).get? w).map _
    rw [get?_insert, get?_insert]
    split
    · show some (newEnds c'.graph u) = some ⟨κ (newEnds c.graph u).input, κ (newEnds c.graph u).output⟩
      rw [hin, hout]
    · exact h.boundary w

include h in
lemma addUnit_mirrors (u : UnitId) : Mirrors ι c c' (fun _ => id) (addUnit u) (addUnit u) := by
  intro a d hrun
  rcases addUnit_cases u c with ⟨hunit, hregister, hok⟩ | ⟨e, herror⟩
  · obtain ⟨_, rfl⟩ := ok_unique hok hrun
    have hok' := addUnit_run (by rw [h.hasUnit_eq, hunit]) (by rw [Admits, h.units_eq]; exact hregister)
    obtain ⟨κ, hin, hout, hold⟩ := exists_match_newEnds h.valid u ι (newEnds c'.graph u)
    exact ⟨κ, c'.insertUnit u, hok', (h.congr hold).insertUnit (addUnit_sound u _ _ _ h.sound hok)
      (addUnit_sound u _ _ _ h.sound' hok') hin hout, fun v hv _ => hold v hv⟩
  · rw [herror] at hrun
    cases hrun

/-! ## Contents -/

/-- The vertices of `d` are those of `c`, with other contents. -/
def Recasts (f : Vertex → NodeKind → NodeKind) (c d : Circuit) : Prop :=
  ∀ v, d.graph.vertices.get? v = (c.graph.vertices.get? v).map fun n => { n with kind := f v n.kind }

variable {f f' : Vertex → NodeKind → NodeKind}

lemma made_of_contents (hs : c.Sound) (hd : d.Sound) (hget : Recasts f c d) :
    d.graph.bySequence.map Prod.fst = c.graph.bySequence.map Prod.fst := by
  rw [made_filter hs.wellFormed.valid hs.numbered hd.wellFormed.valid hd.numbered fun {v n'} hn' => ?_]
  · refine filter_eq_self.mpr fun v hv => ?_
    obtain ⟨n, hn⟩ := Graph.live_iff.mp ((mem_map_bySequence hs.wellFormed.valid).mp hv)
    rw [SlotStore.contains, hget, hn]
    rfl
  · rw [hget] at hn'
    obtain ⟨n, hn, rfl⟩ := map_eq_some_iff.mp hn'
    exact ⟨n, hn, rfl⟩

lemma Equivalent.of_contents (h : Equivalent ι c c') (hd : d.Sound) (hd' : d'.Sound)
    (hget : Recasts f c d) (hget' : Recasts f' c' d') (hf : ∀ {v k}, c.graph.kind? v = some k → f' (ι v) k = f v k)
    (hedges : d.graph.edges = c.graph.edges) (hedges' : d'.graph.edges = c'.graph.edges)
    (hboundary : d.boundary = c.boundary) (hboundary' : d'.boundary = c'.boundary) (phase : d'.phase = d.phase)
    (name : d'.name = d.name) (opgroups : d'.opgroups = d.opgroups) : Equivalent ι d d' := by
  refine .of_made hd hd' ?_ (fun {v n} hn => ?_) (fun l hl => ?_) (fun u => ?_) phase name opgroups
  · rw [made_of_contents h.sound hd hget, made_of_contents h.sound' hd' hget', h.made]
  · rw [hget] at hn
    obtain ⟨n0, hn0, rfl⟩ := map_eq_some_iff.mp hn
    obtain ⟨n', hn', hkind, hog⟩ := h.node_eq hn0
    refine ⟨{ n' with kind := f' (ι v) n'.kind }, by rw [hget', hn']; rfl, ?_, hog⟩
    have hk : c.graph.kind? v = some n0.kind := kind?_of_get? hn0
    rw [hkind, hf hk]
  · unfold HasLink at hl ⊢
    rw [hedges] at hl
    rw [hedges']
    exact h.hasLink hl
  · rw [hboundary, hboundary']
    exact h.boundary u

lemma Side.mark_cases (h : c.Framed) (s : Side) (u : UnitId) : (∃ ends, u.kind = .qubit ∧ c.boundary.get? u = some ends ∧
      s.mark u c = .ok () { c with graph := c.graph.withKind (s.vertex ends) s.marked }) ∨
    ∃ e, s.mark u c = .error e c := by
  have hsteps : s.mark u = (do
      ask fun _ => checkKind u .qubit
      let ends ← ask (·.ends u)
      onGraph (setKind (s.vertex ends) s.marked)) := by
    cases s <;> rfl
  cases hkind : checkKind u .qubit with
  | error e =>
    right
    rw [hsteps]
    exact ⟨e, bind_error (ask_of_error hkind)⟩
  | ok a =>
    cases hu : c.boundary.get? u with
    | some ends => exact .inl ⟨ends, checkKind_eq_ok.mp hkind, rfl, Side.mark_run h s (checkKind_eq_ok.mp hkind) hu⟩
    | none =>
      right
      have hends : c.ends u = .error (.unitNotFound u) := by
        unfold Circuit.ends
        rw [hu]
      rw [hsteps]
      exact ⟨_, (bind_ok (ask_of_ok hkind)).trans (bind_error (ask_of_error hends))⟩

lemma Side.mark_sound (s : Side) (u : UnitId) : Keeps Sound (s.mark u) :=
  sound_keeps (s.mark_keeps u) (s.mark_lasts lasting_numbered u)

include h in
lemma Side.mark_mirrors (s : Side) (u : UnitId) : Mirrors ι c c' (fun _ => id) (s.mark u) (s.mark u) := by
  intro a d hrun
  rcases Side.mark_cases h.sound.wellFormed.toFramed s u with ⟨ends, hqubit, hu, hok⟩ | ⟨e, herror⟩
  · obtain ⟨_, rfl⟩ := ok_unique hok hrun
    have hu' : c'.boundary.get? u = some (ends.map ι) := by rw [h.boundary, hu]; rfl
    have hok' := Side.mark_run h.sound'.wellFormed.toFramed s hqubit hu'
    have hvertex : s.vertex (ends.map ι) = ι (s.vertex ends) := by cases s <;> rfl
    obtain ⟨k, hk, _⟩ := h.sound.wellFormed.exists_end s hu
    have hlive := live_of_kind? hk
    have hget : ∀ (g : Graph) x v, (g.withKind x s.marked).vertices.get? v =
        (g.vertices.get? v).map fun n => { n with kind := if v = x then s.marked else n.kind } := by
      intro g x v
      rw [withKind, get?_update]
      split
      · rfl
      · exact map_id'.symm
    refine ⟨ι, _, hok', h.of_contents (s.mark_sound u _ _ _ h.sound hok) (s.mark_sound u _ _ _ h.sound' hok')
      (hget _ _) (hget _ _) (fun {v k'} hk' => ?_) rfl rfl rfl rfl h.phase h.name h.opgroups, fun v _ _ => rfl⟩
    rw [hvertex]
    simp only [h.live_iff (live_of_kind? hk') hlive]
  · rw [herror] at hrun
    cases hrun

include h in
lemma bindSymbols_mirrors (σ : Binding) :
    Mirrors ι c c' (fun _ => id) (modify (·.bindSymbols σ)) (modify (·.bindSymbols σ)) := by
  intro a d hrun
  cases hrun
  have hs : ∀ {c : Circuit}, c.Sound → (c.bindSymbols σ).Sound := fun hc =>
    ⟨bindSymbols_wellFormed hc.wellFormed σ, bindSymbols_lasts lasting_numbered hc.numbered σ⟩
  refine ⟨ι, c'.bindSymbols σ, rfl, h.of_contents (hs h.sound) (hs h.sound') (get?_bindSymbols c σ) (get?_bindSymbols c' σ)
    (fun _ => rfl) rfl rfl rfl rfl ?_ h.name h.opgroups, fun v _ _ => rfl⟩
  show (c'.phase.bind σ).simplify = (c.phase.bind σ).simplify
  rw [h.phase]

/-! ## Names -/

lemma rename_mirrors {changed : Bool} (h : Equivalent ι c c') (hrun : c.rename ρ = .ok (changed, d)) :
    ∃ d', c'.rename ρ = .ok (changed, d') ∧ Equivalent ι d d' := by
  have hnames := exists_rename_iff.mp ⟨_, hrun⟩
  rw [← h.units_eq] at hnames
  obtain ⟨⟨_, d'⟩, hrun'⟩ := exists_rename_iff.mpr hnames
  obtain rfl := (changed_of_rename hrun').trans (h.units_eq ▸ (changed_of_rename hrun).symm)
  have hren := rename_eq_ok hrun
  have hren' := rename_eq_ok hrun'
  obtain ⟨b, rfl⟩ : ∃ b, d = { c with boundary := b } := ⟨_, hren.others⟩
  obtain ⟨b', rfl⟩ : ∃ b', d' = { c' with boundary := b' } := ⟨_, hren'.others⟩
  refine ⟨_, hrun', .of_made ⟨rename_wellFormed h.sound.wellFormed hrun, h.sound.numbered⟩
    ⟨rename_wellFormed h.sound'.wellFormed hrun', h.sound'.numbered⟩ h.made h.node_eq (fun l hl => h.hasLink hl)
    (fun u => Option.ext fun ends => ?_) h.phase h.name h.opgroups⟩
  simp only [hren'.ends, map_eq_some_iff, hren.ends, h.boundary]
  constructor
  · rintro ⟨w, ⟨ends, hw, heq⟩, hu⟩
    exact ⟨ends, ⟨w, hw, hu⟩, heq⟩
  · rintro ⟨ends, ⟨w, hw, hu⟩, heq⟩
    exact ⟨w, ⟨ends, hw, heq⟩, hu⟩

include h in
lemma renameUnits_mirrors (ρ : Renaming) : Mirrors ι c c' (fun _ => id) (renameUnits ρ) (renameUnits ρ) := by
  intro changed d hrun
  obtain ⟨d', hrun', heq⟩ := rename_mirrors h (revise_eq_ok.mp hrun)
  exact ⟨ι, d', revise_eq_ok.mpr hrun', heq, fun _ _ _ => rfl⟩

include h in
lemma flattenRegisters_mirrors : Mirrors ι c c' (fun _ => id) flattenRegisters flattenRegisters := by
  intro σ d hrun
  obtain ⟨_, _, h1, hrest⟩ := bind_eq_ok.mp (bind_get.symm.trans hrun)
  cases hrest
  obtain ⟨κ, d', hrun', heq, hκ⟩ := renameUnits_mirrors h _ _ _ h1
  refine ⟨κ, d', ?_, heq, hκ⟩
  refine bind_get.trans ?_
  rw [h.units_eq]
  exact bind_ok hrun'

/-! ## Blank wires -/

include h in
lemma Equivalent.isBlank_iff (hu : c.boundary.get? u = some ends) : c'.IsBlank (ends.map ι) ↔ c.IsBlank ends := by
  have hin := h.sound.wellFormed.live_input hu
  have hout := h.sound.wellFormed.live_output hu
  constructor
  · intro hblank l hl hs
    exact h.injective (h.valid.target_live hl) hout (hblank _ (h.hasLink hl) (congrArg ι hs))
  · intro hblank m hm hs
    obtain ⟨l, hl, rfl⟩ := (h.link m).mp hm
    exact congrArg ι (hblank l hl (h.injective (h.valid.source_live hl) hin hs))

lemma removeBlankWires_sound : Keeps Sound removeBlankWires :=
  sound_keeps removeBlankWires_keeps (removeBlankWires_lasts lasting_numbered)

include h in
open Classical in
lemma Equivalent.blank_eq : (c'.boundary.entries.filter fun x => c'.IsBlank x.2) =
    (c.boundary.entries.filter fun x => c.IsBlank x.2).map fun x => (x.1, x.2.map ι) := by
  rw [h.boundary_eq]
  show (c.boundary.entries.map fun x => (x.1, x.2.map ι)).filter _ = _
  rw [List.filter_map]
  refine congrArg _ (filter_congr fun x hx => ?_)
  exact decide_eq_decide.mpr (h.isBlank_iff (get?_iff_mem.mpr hx))

include h in
lemma Equivalent.offWires_iff (hends : ∀ x ∈ wires, c.graph.Live x.2.input ∧ c.graph.Live x.2.output) (hv : c.graph.Live v) :
    OffWires (wires.map fun x => (x.1, x.2.map ι)) (ι v) ↔ OffWires wires v := by
  unfold OffWires
  rw [List.forall_mem_map]
  refine forall₂_congr fun x hx => ?_
  exact and_congr (not_congr (h.live_iff hv (hends x hx).1)) (not_congr (h.live_iff hv (hends x hx).2))

lemma map_fst_moved (ι : Vertex → Vertex) (wires : List (UnitId × Ends)) :
    (wires.map fun x => (x.1, x.2.map ι)).map Prod.fst = wires.map Prod.fst := by
  rw [List.map_map]
  rfl

lemma IsTrimmed.equivalent (htrim : IsTrimmed wires c d)
    (htrim' : IsTrimmed (wires.map fun x => (x.1, x.2.map ι)) c' d') (h : Equivalent ι c c')
    (hends : ∀ x ∈ wires, c.graph.Live x.2.input ∧ c.graph.Live x.2.output) (hd : d.Sound) (hd' : d'.Sound) :
    Equivalent ι d d' := by
  refine .of_made hd hd' ?_ (fun {v n} hn => ?_) (fun l hl => ?_) (fun u => ?_) ?_ ?_ ?_
  · rw [htrim.made, htrim'.made, h.made, List.filter_map]
    refine congrArg _ (filter_congr fun v hv => ?_)
    exact decide_eq_decide.mpr (h.offWires_iff hends ((mem_map_bySequence h.valid).mp hv))
  · obtain ⟨hn0, hv⟩ := htrim.node.mp hn
    obtain ⟨n', hn', hkind, hog⟩ := h.node_eq hn0
    exact ⟨n', htrim'.node.mpr ⟨hn', (h.offWires_iff hends (live_of_get? hn0)).mpr hv⟩, hkind, hog⟩
  · obtain ⟨hl0, hv⟩ := (htrim.link l).mp hl
    refine (htrim'.link _).mpr ⟨h.hasLink hl0, forall_mem_map.mpr fun x hx => ?_⟩
    exact ⟨fun heq => (hv x hx).1 (h.injective (h.valid.source_live hl0) (hends x hx).1 heq),
      fun heq => (hv x hx).2 (h.injective (h.valid.target_live hl0) (hends x hx).2 heq)⟩
  · rw [htrim.ends, htrim'.ends, map_fst_moved]
    split
    · rfl
    · exact h.boundary u
  · rw [htrim.others, htrim'.others]
    exact h.phase
  · rw [htrim.others, htrim'.others]
    exact h.name
  · rw [htrim.others, htrim'.others]
    exact h.opgroups

include h in
lemma removeBlankWires_mirrors : Mirrors ι c c' (fun _ => id) removeBlankWires removeBlankWires := by
  intro units d hrun
  obtain ⟨_, hok, _, htrim⟩ := removeBlankWires_run h.sound.wellFormed.wired
  obtain ⟨d', hok', _, htrim'⟩ := removeBlankWires_run h.sound'.wellFormed.wired
  obtain ⟨rfl, rfl⟩ := ok_unique hok hrun
  have hs := removeBlankWires_sound _ _ _ h.sound hok
  have hs' := removeBlankWires_sound _ _ _ h.sound' hok'
  rw [h.blank_eq] at hok' htrim'
  rw [map_fst_moved] at hok'
  refine ⟨ι, d', hok', htrim.equivalent htrim' h (fun x hx => ?_) hs hs', fun _ _ _ => rfl⟩
  have hu := get?_iff_mem.mpr (mem_filter.mp hx).1
  exact ⟨h.sound.wellFormed.live_input hu, h.sound.wellFormed.live_output hu⟩

/-! ## Operations -/

include h in
lemma Equivalent.carries : Net.Carries c.graph.Live ι c.graph.net c'.graph.net :=
  ⟨fun hl => ⟨h.valid.source_live hl, h.valid.target_live hl⟩, fun hl => h.hasLink hl⟩

lemma removeOp_sound (v : Vertex) : Keeps Sound (removeOp v) :=
  sound_keeps (removeOp_keeps v) (removeOp_lasts lasting_numbered v)

include h in
lemma removeOp_mirrors (hv : c.graph.Live v) : Mirrors ι c c' (fun _ => id) (removeOp v) (removeOp (ι v)) := by
  intro a d hrun
  by_cases hop : ∃ op, c.graph.kind? v = some (.op op)
  · obtain ⟨op, hop⟩ := hop
    have hop' : c'.graph.kind? (ι v) = some (.op op) := by rw [h.kind?_eq hv, hop]
    obtain ⟨g, hok, _, hvert, hsplice⟩ := removeOp_run h.sound.wellFormed.wired hop
    obtain ⟨g', hok', _, hvert', hsplice'⟩ := removeOp_run h.sound'.wellFormed.wired hop'
    obtain ⟨_, rfl⟩ := ok_unique hok hrun
    have hcarries := h.carries.splice h.injective hv hsplice hsplice'
    refine ⟨ι, _, hok', .of_made (removeOp_sound v _ _ _ h.sound hok) (removeOp_sound _ _ _ _ h.sound' hok') ?_
      (fun {w n} hn => ?_) (fun l hl => hcarries.link hl) h.boundary h.phase h.name h.opgroups, fun _ _ _ => rfl⟩
    · show g'.bySequence.map Prod.fst = (g.bySequence.map Prod.fst).map ι
      rw [made_of_release hvert, made_of_release hvert', h.made, List.filter_map]
      refine congrArg _ (filter_congr fun w hw => ?_)
      exact decide_eq_decide.mpr (not_congr (h.live_iff ((mem_map_bySequence h.valid).mp hw) hv))
    · replace hn : g.vertices.get? w = some n := hn
      rw [hvert] at hn
      obtain ⟨hne, hn⟩ := get?_release_eq_some_iff.mp hn
      obtain ⟨n', hn', hkind, hog⟩ := h.node_eq hn
      refine ⟨n', ?_, hkind, hog⟩
      rw [hvert', get?_release_other _ fun heq => hne (h.injective (live_of_get? hn) hv heq), hn']
  · obtain ⟨e, herror⟩ := removeOp_error (not_exists.mp hop)
    rw [herror] at hrun
    cases hrun

section Extends

variable {unit unit' unitD unitD' : Pin → UnitId} {op : Op} {args : List UnitId} {og : Option String}

variable (he : c.Extends d unit unitD op args og) (hl : d.graph.HasLink l)

include he hl in
lemma Extends.target_new (hv : l.target.vertex = c.graph.vertices.nextHandle) :
    ∃ p, (args.zip op.signature)[l.target.index]? = some p := by
  have hkind : d.graph.kind? c.graph.vertices.nextHandle = some (.op op) := by rw [kind?, he.get?_new]; rfl
  have hwire := he.wired'.threaded.target_wire hl
  rw [wireAt_of_kind? (hv ▸ hkind)] at hwire
  have hlt := (List.getElem?_eq_some_iff.mp hwire).1
  exact ⟨_, getElem?_eq_getElem (by rw [length_zip, he.arity, Nat.min_self]; exact hlt)⟩

include he hl in
lemma Extends.target_output (hu : c.boundary.get? u = some ends)
    (ht : ends.output = l.target.vertex) : l.target = ⟨ends.output, 0⟩ := by
  have hsig : d.graph.net.signature? l.target.vertex = some [u.kind.wire] := by
    rw [← ht]
    exact he.wired'.signature_output (by rw [he.boundary]; exact hu)
  rw [ht]
  exact (Net.pin_of_single hsig (he.wired'.threaded.target_wire hl)).1

include he in
/-- **The links of a new operation run between matched pins.** Each pin is fed once, so it is enough to find for every pin
    one link that is carried. -/
theorem Extends.carries (he' : c'.Extends d' unit' unitD' op args og) (hκ : Equivalent κ c c')
    (hnew : κ c.graph.vertices.nextHandle = c'.graph.vertices.nextHandle)
    (hunits : ∀ p ∈ args.zip op.signature, c.hasUnit p.1) (hl : d.graph.HasLink l) :
    d'.graph.HasLink (l.map κ) := by
  have hunique : ∀ {m}, d.graph.HasLink m → m.target = l.target → l = m := fun hm ht =>
    he.wired'.threaded.in_unique hl hm ht.symm
  have hnewpin : ∀ i, (⟨c.graph.vertices.nextHandle, i⟩ : Pin).map κ = ⟨c'.graph.vertices.nextHandle, i⟩ := fun i => by
    unfold Pin.map
    rw [hnew]
  by_cases hv : l.target.vertex = c.graph.vertices.nextHandle
  · -- a pin of the new vertex
    obtain ⟨p, hp⟩ := he.target_new hl hv
    obtain ⟨ends, hu⟩ := contains_iff.mp (hunits p (mem_of_getElem? hp))
    obtain ⟨m, hm, ht, _⟩ := he.wired.exists_last_link hu
    rw [hunique (he.enters hp hu hm ht) (Pin.ext hv.symm rfl)]
    unfold Link.map
    rw [hnewpin]
    exact he'.enters hp (hκ.ends_eq hu) (hκ.hasLink hm) (congrArg (Pin.map κ) ht)
  · by_cases hout : c.IsOutput l.target.vertex
    · -- the end of a unit, which the operation writes or leaves alone
      obtain ⟨u, ends, hu, hends⟩ := hout
      have htarget := he.target_output hl hu hends
      by_cases hwritten : ∃ p ∈ args.zip op.signature, p.2.isLinear ∧ p.1 = u
      · obtain ⟨⟨_, k⟩, hp, hlin, rfl⟩ := hwritten
        obtain ⟨i, hi⟩ := mem_iff_getElem?.mp hp
        rw [hunique (he.leaves hi hlin hu) htarget.symm]
        unfold Link.map
        rw [hnewpin]
        exact he'.leaves hi hlin (hκ.ends_eq hu)
      · have hpass : ∀ p ∈ args.zip op.signature, p.2.isLinear → p.1 ≠ u := fun p hp hlin heq =>
          hwritten ⟨p, hp, hlin, heq⟩
        obtain ⟨m, hm, ht, _⟩ := he.wired.exists_last_link hu
        rw [hunique (he.passes hpass hu hm ht) (ht.trans htarget.symm)]
        exact he'.passes hpass (hκ.ends_eq hu) (hκ.hasLink hm) (congrArg (Pin.map κ) ht)
    · have hold := (he.links hv hout).mp hl
      refine (he'.links (fun heq => ?_) fun hout' => ?_).mpr (hκ.hasLink hold)
      · exact he'.ne_new (hκ.valid'.target_live (hκ.hasLink hold)) heq
      · obtain ⟨u, _, hu', heq⟩ := hout'
        obtain ⟨ends, hu, rfl⟩ := hκ.exists_ends hu'
        have hlive := he.wired.live_output hu
        exact hout ⟨u, ends, hu, hκ.injective hlive (hκ.valid.target_live hold) heq⟩

lemma addOp_sound (op : Op) (args : List UnitId) (og : Option String) : Keeps Sound (addOp op args og) :=
  sound_keeps (addOp_keeps op args og) (addOp_lasts lasting_numbered op args og)

lemma Equivalent.accepts (h : Equivalent ι c c') (haccepts : c.Accepts op args og) : c'.Accepts op args og where
  arity := haccepts.arity
  units p hp := by
    rw [h.hasUnit_eq]
    exact haccepts.units p hp
  apart := haccepts.apart
  opgroup name s hname hs := haccepts.opgroup name s hname (h.opgroups ▸ hs)

/-- **An operation is added to both circuits or to neither**, and the new vertices are matched. -/
theorem addOp_mirrors (h : Equivalent ι c c') (op : Op) (args : List UnitId) (og : Option String) :
    Mirrors ι c c' id (addOp op args og) (addOp op args og) := by
  intro v d hrun
  obtain ⟨haccepts, _⟩ := addOp_eq_ok h.sound.wellFormed.wired hrun
  obtain ⟨g, _, hok, he⟩ := haccepts.run h.sound.wellFormed.wired
  obtain ⟨g', _, hok', he'⟩ := (h.accepts haccepts).run h.sound'.wellFormed.wired
  obtain ⟨rfl, rfl⟩ := ok_unique hok hrun
  let κ := Function.update ι c.graph.vertices.nextHandle c'.graph.vertices.nextHandle
  have hnew : κ c.graph.vertices.nextHandle = c'.graph.vertices.nextHandle := by simp [κ]
  have hold : ∀ v, c.graph.Live v → κ v = ι v := fun v hv => by simp [κ, he.ne_new hv]
  have hκ := h.congr hold
  refine ⟨κ, _, hok'.trans (by rw [← hnew]; rfl),
    .of_made (addOp_sound op args og _ _ _ h.sound hok) (addOp_sound op args og _ _ _ h.sound' hok') ?_
    (fun {v n} hn => ?_) (fun l hl => he.carries he' hκ hnew (fun p hp => (haccepts.units p hp).1) hl) hκ.boundary
    h.phase h.name (congrArg (withOpgroup · op og) h.opgroups), fun v hv _ => hold v hv⟩
  · rw [made_of_vertices he.vertices, made_of_vertices he'.vertices, made_withVertex h.valid h.sound.numbered.sequenced,
      made_withVertex h.valid' h.sound'.numbered.sequenced, map_append, hκ.made, map_singleton, hnew]
  · by_cases hv : v = c.graph.vertices.nextHandle
    · have hn' := he.get?_new
      rw [← hv] at hn'
      cases mem_unique hn hn'
      exact ⟨⟨.op op, og, c'.graph.nextSequence⟩, by rw [hv, hnew]; exact he'.get?_new, rfl, rfl⟩
    · replace hn : g.vertices.get? v = some n := hn
      have hn0 : c.graph.vertices.get? v = some n := by
        have hvert := he.vertices
        rw [hvert] at hn
        exact (SlotStore.get?_insert_other _ hv _).symm.trans hn
      obtain ⟨n', hn', hkind, hog⟩ := hκ.node_eq hn0
      exact ⟨n', (he'.get?_old (live_of_get? hn')).trans hn', hkind, hog⟩

end Extends

end Circuit

end Wireloom
