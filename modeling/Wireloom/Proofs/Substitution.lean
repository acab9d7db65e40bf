import Wireloom.Proofs.Filling

/-!
# `Circuit.substitute` — a circuit in a hole of another

Once copied in and connected, the graph is a graft of the copies on the host (`Ready.isGraft`), and clearing the hole
turns it into the net with the hole filled, its ends spliced out (`Ready.clearHole_run`, `Ready.fill_run`).
-/

namespace Wireloom

namespace Net

variable {H G : Net} {first last : Vertex → Prop} {slots : List Slot}

lemma Slotted.nodup_ends (h : Slotted H G first last slots) (hnodup : slots.Nodup) {f : Slot → List Vertex}
    (hf : ∀ s, (f s).Sublist [s.input, s.output]) : (slots.flatMap f).Nodup := by
  refine List.nodup_flatMap.mpr ⟨fun s hs => ?_, hnodup.imp_of_mem fun {s t} hs ht hne v hvs hvt => ?_⟩
  · have hends : [s.input, s.output].Nodup := by simp [h.input_ne_output hs hs]
    exact (hf s).nodup hends
  · have hmem : ∀ {s}, v ∈ f s → v = s.input ∨ v = s.output := fun {s} hv => by simpa using (hf s).subset hv
    rcases hmem hvs with hs' | hs' <;> rcases hmem hvt with ht' | ht'
    · exact hne (h.input_injective hs ht (hs'.symm.trans ht'))
    · exact h.input_ne_output hs ht (hs'.symm.trans ht')
    · exact h.input_ne_output ht hs (ht'.symm.trans hs')
    · exact hne (h.output_injective hs ht (hs'.symm.trans ht'))

end Net

namespace Circuit

open Wireloom.Graph Net List WireKind SortedSet

lemma splicedBy_sublist (g : Graph) (s : Slot) : (splicedBy g s).Sublist [s.input, s.output] := by
  unfold splicedBy
  split
  · split
    · exact sublist_cons_self _ _
    · exact Sublist.refl _
  · exact nil_sublist _

lemma droppedBy_sublist (s : Slot) : (droppedBy s).Sublist [s.input, s.output] := by
  unfold droppedBy
  split
  · exact nil_sublist _
  · exact Sublist.refl _

lemma mem_splicedBy {g : Graph} {s : Slot} {v : Vertex} :
    v ∈ splicedBy g s ↔ (∃ x, s.exit = some x) ∧ ((v = s.input ∧ resets g s = false) ∨ v = s.output) := by
  unfold splicedBy
  cases s.exit with
  | none => simp
  | some x => cases resets g s <;> simp

lemma mem_dropped {slots : List Slot} {v : Vertex} : v ∈ slots.flatMap droppedBy ↔ Dropped slots v := by
  rw [mem_flatMap]
  refine exists_congr fun s => and_congr_right fun _ => ?_
  unfold droppedBy
  cases s.exit with
  | none => simp [eq_comm]
  | some x => simp

lemma seam_of_spliced {g : Graph} {slots : List Slot} {v : Vertex} (hv : v ∈ slots.flatMap (splicedBy g)) :
    Seam slots v := by
  obtain ⟨s, hs, hv⟩ := mem_flatMap.mp hv
  obtain ⟨⟨x, hx⟩, hv⟩ := mem_splicedBy.mp hv
  exact ⟨s, hs, x, hx, hv.imp (fun h => h.1.symm) Eq.symm⟩

namespace Ready

variable {c c₁ : Circuit} {G : Net} {ι : Vertex → Vertex} {xs : List Filling} {g₂ g₃ g₄ : Graph} {v : Vertex}
  {k : NodeKind} {es crossed : List Edge}

/-! ## The graph once everything is connected -/

lemma touched_signature (h : Ready c c₁ G ι xs) (hk : c₁.graph.kind? v = some k) :
    (touched c₁.graph (c.slotsAt ι xs) v k).signature = k.signature := by
  unfold touched
  split
  · next hreset =>
    obtain ⟨s, _, hs⟩ := any_eq_true.mp hreset
    rw [Bool.and_eq_true, decide_eq_true_eq] at hs
    obtain ⟨hs, rfl⟩ := hs
    cases Option.mem_unique hk ((resets_cases hs).2)
    rfl
  · split
    · next hdiscard =>
      obtain ⟨s, hs, hd⟩ := any_eq_true.mp hdiscard
      obtain ⟨⟨ko, hko, hdis⟩, ⟨x, hx, rfl⟩, _, hk', hout⟩ := discards_cases hd
      cases Option.mem_unique hk hk'
      -- the wire carries a qubit, since the copied output discards it
      obtain ⟨hxl, hxlin, hkind⟩ := h.slotted.exit_link hs hx
      have hentry : s.entry.kind.carrier = .quantum := by
        have hsig := (h.union.signature_right (h.slotted.live_output hs)).trans (h.slotted.signature_output hs)
        rw [signature_of_kind? hko] at hsig
        cases ko with
        | discard => exact (singleton_inj.mp (Option.some.inj hsig)).symm
        | input _ => cases hdis
        | create => cases hdis
        | output _ => cases hdis
        | op _ => cases hdis
      obtain ⟨_, hk0⟩ := kind?_of_signature (h.slotted.host_exit hs hx)
      have hsig := signature_of_kind? (Option.mem_unique (h.old hk0) hk ▸ hk0)
      cases k with
      | output kind =>
        have hwire := (pin_of_single hsig (h.slotted.host_fitted.target_wire hxl)).2
        rw [← carrier_eq hxlin, hkind, hentry] at hwire
        rw [← hwire]
        rfl
      | input _ => cases hout
      | create => cases hout
      | discard => cases hout
      | op _ => cases hout
    · rfl

/-- **Once everything is connected and the crossed edges are out, the graph is a graft.** -/
theorem isGraft {reads : Link → Prop} (h : Ready c c₁ G ι xs) (hreads : ∀ {l}, reads l → c.graph.net.link l)
    (hg : Connected c c₁ G ι xs g₂)
    (hgrow : Grows g₂ g₃ (ReadBy c.graph (c.slotsAt ι xs) es))
    (hes : ∀ {e}, e ∈ es ↔ ∃ l, c.graph.edges.get? e = some l ∧ reads l)
    (hcrossed : ∀ {e}, e ∈ crossed ↔ e ∈ es ∨ ∃ x ∈ xs, ∃ e', x.2.2 = some e' ∧ (e = x.2.1 ∨ e = e'))
    (hvert : g₄.vertices = g₃.vertices)
    (hget : ∀ {e l}, g₄.edges.get? e = some l ↔ e ∉ crossed ∧ g₃.edges.get? e = some l) :
    g₄.net.IsGraft c.graph.net G reads (c.slotsAt ι xs) := by
  have hkept : ∀ {e m}, c.graph.edges.get? e = some m → g₃.edges.get? e = some m := fun he =>
    hgrow.kept (hg.kept (h.kept he))
  -- the crossed edges are those of the crossed links
  have hedge : ∀ {e}, e ∈ crossed ↔ ∃ l, c.graph.edges.get? e = some l ∧ CrossedLink reads (c.slotsAt ι xs) l := by
    intro e
    rw [hcrossed, hes]
    constructor
    · rintro (⟨l, hl, hleave⟩ | ⟨x, hx, e', he', rfl | rfl⟩)
      · exact ⟨l, hl, .inr hleave⟩
      · obtain ⟨l', _, hexit⟩ := h.get?_exit hx he'
        exact ⟨_, h.get?_entry hx, .inl ⟨_, mem_slots hx, l', hexit, .inl rfl⟩⟩
      · obtain ⟨l', hl', hexit⟩ := h.get?_exit hx he'
        exact ⟨l', hl', .inl ⟨_, mem_slots hx, l', hexit, .inr rfl⟩⟩
    · rintro ⟨l, hl, ⟨s, hs, x, hx, hlx⟩ | hleave⟩
      · obtain ⟨y, hy, rfl⟩ := mem_map.mp hs
        obtain ⟨e', he', hx'⟩ := Option.bind_eq_some_iff.mp hx
        refine .inr ⟨y, hy, e', he', ?_⟩
        -- the edge is found by its link, of which there is one only
        rcases hlx with rfl | rfl
        · exact .inl (hgrow.simple (hkept hl) (hkept (h.get?_entry hy)))
        · exact .inr (hgrow.simple (hkept hl) (hkept hx'))
      · exact .inl ⟨l, hl, hleave⟩
  refine ⟨fun v => ?_, fun m => ?_⟩
  · rw [← h.union.signature]
    show (g₄.kind? v).map _ = (c₁.graph.kind? v).map _
    have hkind : g₄.kind? v = (c₁.graph.kind? v).map (touched c₁.graph (c.slotsAt ι xs) v) := by
      rw [← hg.kind?]
      unfold kind?
      rw [hvert, hgrow.vertices]
    rw [hkind]
    cases hk : c₁.graph.kind? v with
    | none => rfl
    | some k => rw [Option.map_some, Option.map_some, Option.map_some, h.touched_signature hk]
  · have hlinks : g₃.HasLink m ↔ c.graph.net.link m ∨ G.link m ∨
        (∃ s ∈ c.slotsAt ι xs, SlotLink G s m) ∨ ReadLink reads (c.slotsAt ι xs) m := by
      have hread : ReadBy c.graph (c.slotsAt ι xs) es m ↔ ReadLink reads (c.slotsAt ι xs) m := by
        constructor
        · rintro ⟨e, he, l, hl, hm⟩
          obtain ⟨l', hl', hleave⟩ := hes.mp he
          cases Option.mem_unique hl hl'
          exact ⟨l, hleave, hm⟩
        · rintro ⟨l, hleave, hm⟩
          obtain ⟨e, hl⟩ := hreads hleave
          exact ⟨e, hes.mpr ⟨l, hl, hleave⟩, l, hl, hm⟩
      rw [hgrow.links, hg.links, hread, or_assoc]
      exact (or_congr_left (h.union.link m)).trans or_assoc
    rw [← hlinks]
    constructor
    · rintro ⟨e, he⟩
      obtain ⟨hnot, he⟩ := hget.mp he
      refine ⟨⟨e, he⟩, fun hcross => hnot (hedge.mpr ⟨m, ?_, hcross⟩)⟩
      obtain ⟨e', he'⟩ := h.slotted.host_of_crossed hreads hcross
      rw [hgrow.simple he (hkept he')]
      exact he'
    · rintro ⟨⟨e, he⟩, hnot⟩
      refine ⟨e, hget.mpr ⟨fun hcross => ?_, he⟩⟩
      obtain ⟨l, hl, hlink⟩ := hedge.mp hcross
      cases Option.mem_unique he (hkept hl)
      exact hnot hlink

end Ready

/-! ## Clearing the hole -/

/-- **What is left once the hole is cleared**: the filled net, with the ends spliced out. -/
structure Cleared (filled : Net) (R : Vertex → Prop) (slots : List Slot) (g g' : Graph) : Prop where
  valid : g'.Valid
  simple : g'.Simple
  splices : filled.Splices (slots.flatMap (splicedBy g)) g'.net
  gone : ∀ {v}, v ∈ slots.flatMap (splicedBy g) ∨ Waste R slots v → g'.vertices.get? v = none
  stays : ∀ {v}, v ∉ slots.flatMap (splicedBy g) → ¬ Waste R slots v → g'.vertices.get? v =
    (g.vertices.get? v).map fun n => { n with kind := touched g slots v n.kind }

namespace Ready

variable {c c₁ : Circuit} {G : Net} {unit : Pin → UnitId} {ι : Vertex → Vertex} {xs : List Filling} {g₂ g₃ : Graph}
  {es : List Edge} {α : Type}

/-- What clearing leaves at the vertices inside if they are kept, and what is left if they are deleted. -/
def Clears (deletion : Deletion) (filled : Net) (interior : SortedSet Vertex) (slots : List Slot) (g g' : Graph) : Prop :=
  (deletion = .keep → g'.Valid ∧ ∀ {v}, interior.contains v → g'.kind? v = (g.kind? v).map (touched g slots v)) ∧
    (deletion = .delete → Cleared filled (fun v => interior.contains v) slots g g')

variable [Preorder α] {rank : Pin → α} {interior : SortedSet Vertex} {filled : Net} {reads : Link → Prop}
  (h : Ready c c₁ G ι xs) (hinner : ∀ {v}, interior.contains v → (c.graph.net.signature? v).isSome)
  (hreads : ∀ {l}, reads l → c.graph.net.link l)
  (hes : ∀ {e}, e ∈ es ↔ ∃ l, c.graph.edges.get? e = some l ∧ reads l)
  (hfilled : ∀ {N : Net}, N.IsGraft c.graph.net G reads (c.slotsAt ι xs) →
    N.off (Waste (fun v => interior.contains v) (c.slotsAt ι xs)) = filled ∧
    N.Aside (Waste (fun v => interior.contains v) (c.slotsAt ι xs)) (Seam (c.slotsAt ι xs)))
  (hstrung : filled.Strung unit c.IsInput c.IsOutput rank)
  (hsingle : ∀ {v}, Seam (c.slotsAt ι xs) v → filled.Single v) (hg : Connected c c₁ G ι xs g₂)
include h hinner hreads hes hfilled hstrung hsingle hg

/-- **Clearing the hole leaves the filled net**, with the ends of its wires spliced out. -/
theorem clearHole_run (rest : Leftovers) (deletion : Deletion) (hgrow : Grows g₂ g₃ (ReadBy c.graph (c.slotsAt ι xs) es))
    (hspliced : rest.spliced = (c.slotsAt ι xs).flatMap (splicedBy c₁.graph))
    (hdropped : rest.dropped = (c.slotsAt ι xs).flatMap droppedBy)
    (hcrossed : ∀ {e}, rest.crossed.contains e ↔ e ∈ es ∨ ∃ x ∈ xs, ∃ e', x.2.2 = some e' ∧ (e = x.2.1 ∨ e = e')) :
    ∃ g', clearHole rest interior deletion { c₁ with graph := g₃ } = .ok ⟨⟩ { c₁ with graph := g' } ∧
      Clears deletion filled interior (c.slotsAt ι xs) c₁.graph g' := by
  -- crossed edges go first; what is left is the graft, out of which copied ends and the interior are taken
  obtain ⟨g₄, h4, hvalid4, hsimple4, hvert4, hget4⟩ := removeEdges_run (c := { c₁ with graph := g₃ })
    rest.crossed.toList hgrow.valid hgrow.simple
  have hgraft := h.isGraft hreads hg hgrow hes (fun {e} => mem_toList.trans hcrossed) hvert4 hget4
  obtain ⟨hoff, haside⟩ := hfilled hgraft
  have hlive : ∀ {v}, (c.graph.net.signature? v).isSome ∨ (G.signature? v).isSome → g₄.Live v := by
    intro v hv
    refine signature?_iff.mp ?_
    rw [hgraft.signature, Option.isSome_or]
    exact Bool.or_eq_true_iff.mpr hv
  have hseam : ∀ v ∈ rest.spliced, Seam (c.slotsAt ι xs) v := fun v hv =>
    seam_of_spliced (hspliced ▸ hv)
  have hdrop : ∀ v, v ∈ rest.dropped ↔ Dropped (c.slotsAt ι xs) v := fun v => by
    rw [hdropped]
    exact mem_dropped
  have hinside : ∀ v ∈ interior.toList, g₄.Live v ∧ v ∉ rest.spliced ∧ v ∉ rest.dropped := fun v hv => by
    have hhost := hinner (mem_toList.mp hv)
    exact ⟨hlive (.inl hhost), fun hv' => h.slotted.not_both hhost (h.slotted.live_of_seam (hseam v hv')),
      fun hv' => h.slotted.host_not_dropped hhost ((hdrop v).mp hv')⟩
  obtain ⟨g₅, g₆, g₇, h₅, h₆, h₇, hvalid, hget, hspec⟩ := clear_run rest.dropped interior.toList deletion hvalid4
    hsimple4 (hoff ▸ hstrung) haside
    ⟨hspliced ▸ h.slotted.nodup_ends h.nodup (splicedBy_sublist _),
      hdropped ▸ h.slotted.nodup_ends h.nodup droppedBy_sublist, nodup_toList interior⟩
    (fun v hv => ⟨hseam v hv, hoff ▸ hsingle (hseam v hv), hlive (.inr (h.slotted.live_of_seam (hseam v hv))),
      h.slotted.not_first_guest (h.slotted.live_of_seam (hseam v hv))⟩)
    (fun v hv => ⟨hlive (.inr (h.slotted.live_of_dropped ((hdrop v).mp hv))), fun hv' =>
      h.slotted.not_dropped_of_seam (hseam v hv') ((hdrop v).mp hv)⟩)
    hinside (fun v => by
      rw [hdrop, mem_toList]
      exact or_comm)
  refine ⟨g₇, ?_, fun hkeep => ⟨hvalid, fun {v} hv => ?_⟩, fun hdelete => ?_⟩
  · unfold clearHole
    rw [bind_ok h4, bind_ok (forM_onGraph_of_ok h₅), bind_ok (forM_onGraph_of_ok h₆)]
    exact forM_onGraph_of_ok h₇
  · obtain ⟨_, hsplice, hdropped⟩ := hinside v (mem_toList.mpr hv)
    unfold kind?
    rw [hget, hkeep, if_neg (by simp [hsplice, hdropped]), hvert4, hgrow.vertices, hg.nodes, Option.map_map, Option.map_map]
    rfl
  · obtain ⟨hsimple, hsplices⟩ := hspec hdelete
    have hmem : ∀ v, v ∈ rest.spliced ∨ v ∈ rest.dropped ∨ v ∈ interior.toList ↔
        v ∈ (c.slotsAt ι xs).flatMap (splicedBy c₁.graph) ∨
          Waste (fun v => interior.contains v) (c.slotsAt ι xs) v := fun v => by
      rw [hdrop, mem_toList, hspliced]
      exact or_congr_right or_comm
    refine ⟨hvalid, hsimple, hoff ▸ hspliced ▸ hsplices, fun {v} hv => ?_, fun {v} hsplice hwaste => ?_⟩
    · rw [hget, if_pos (((hmem v).mpr hv).imp_right (Or.imp_right (⟨hdelete, ·⟩)))]
    · have hnot := fun hv => ((hmem v).mp hv).elim hsplice hwaste
      rw [hget, if_neg fun hv => hnot (hv.imp_right (Or.imp_right And.right)), hvert4, hgrow.vertices, hg.nodes]

/-- **The reads that leave the hole are handed on and the hole is cleared**, if each read stands beside a slot. -/
theorem fill_run {rest : Leftovers} (phase : Angle) (deletion : Deletion) (hsimple : c.graph.Simple) (hnodup : es.Nodup)
    (hmatched : ∀ {l}, reads l → Matched (c.slotsAt ι xs) l) (hleft : LeftBy c.graph c₁.graph ι xs rest) :
    ∃ g', (do
        let rest ← es.foldlM connectRead rest
        clearHole rest interior deletion
        addPhase phase) { c₁ with graph := g₂ } = .ok ⟨⟩ { c₁ with graph := g', phase := c₁.phase + phase } ∧
      Clears deletion filled interior (c.slotsAt ι xs) c₁.graph g' := by
  obtain ⟨rest', _, hread, hgrow, hcrossed, hrest⟩ := h.connectRead_run hsimple hg hleft hnodup fun e he =>
    (hes.mp he).imp fun _ hl => ⟨hl.1, hmatched hl.2⟩
  obtain ⟨g', hclear, hcleared⟩ := h.clearHole_run hinner hreads hes hfilled hstrung hsingle hg rest' deletion hgrow
    (by rw [hrest]; exact hleft.spliced) (by rw [hrest]; exact hleft.dropped)
    (fun {e} => hcrossed.trans (or_congr_right hleft.crossed))
  refine ⟨g', ?_, hcleared⟩
  rw [bind_ok hread, bind_ok hclear]
  rfl

end Ready

/-! ## The whole substitution -/

variable {c c' r : Circuit} {unit unitG : Pin → UnitId} {hole : Hole} {policy : OpgroupPolicy} {g : Graph}
  {ι : Vertex → Vertex} {slots : List Slot} {v : Vertex}

/-- **A value that is overwritten inside the region is read outside.** -/
def Leaks (c : Circuit) (region : SortedSet Vertex) : Prop :=
  ∃ l m, c.graph.HasLink l ∧ l.kind = .boolean ∧ ¬ region.contains l.target.vertex = true ∧ c.graph.HasLink m ∧
    m.kind.isLinear = true ∧ m.source = l.source ∧ region.contains m.source.vertex = true ∧
    region.contains m.target.vertex = true

/-- **What a circuit becomes when the slots of a hole are filled.** The copies stand beside the host in `g`, and
    `filled` is the net before the ends of their wires are spliced out. -/
structure Filled (c r : Circuit) (hole : Hole) (policy : OpgroupPolicy) (c' : Circuit) (g : Graph) (ι : Vertex → Vertex)
    (filled : Net) : Prop where
  copy : IsCopy c.graph r.graph g ι policy.keepsNames
  ready : Ready c { c with graph := g } (c.copiedNet r g ι) ι (r.slots hole)
  inner : ∀ {v}, hole.interior.contains v = true → (c.graph.net.signature? v).isSome = true ∧ ¬ c.IsInput v ∧ ¬ c.IsOutput v
  cleared : Cleared filled (fun v => hole.interior.contains v = true) ((r.slots hole).map (slotOf c.graph ι)) g c'.graph
  others : c' = { c with
    graph := c'.graph, opgroups := mergedOpgroups policy c.opgroups r.opgroups, phase := c.phase + r.phase }

/-- **What a circuit becomes with another one in a hole of it.** -/
structure Substituted (c r : Circuit) (hole : Hole) (policy : OpgroupPolicy) (c' : Circuit) (unit : Pin → UnitId)
    (g : Graph) (ι : Vertex → Vertex) : Prop
    extends Filled c r hole policy c' g ι (Net.plug c.graph.net (c.copiedNet r g ι)
      (fun v => hole.interior.contains v = true) ((r.slots hole).map (slotOf c.graph ι))) where
  plug : Plug c.graph.net (c.copiedNet r g ι) (fun v => hole.interior.contains v = true) unit c.IsInput c.IsOutput
    ((r.slots hole).map (slotOf c.graph ι))

section

variable (h : c.Wired unit) {keepNames : Bool} {B : Vertex → Vertex → Prop} {a : Unit}
include h

lemma exists_layered (hr : r.Wired unitG) (hcopy : IsCopy c.graph r.graph g ι keepNames)
    {early : Vertex → Prop} (hB : ∀ v w, B v w → c.graph.net.Before v w)
    (hearly : ∀ {v w}, B v w → early w → early v) :
    ∃ rank : Vertex → ℕ ×ₗ ℕ, Layered B early (fun v => ((c.copiedNet r g ι).signature? v).isSome) rank ∧
      (c.copiedNet r g ι).Ranked rank := by
  obtain ⟨κ, hκ⟩ := hcopy.toHosts.exists_inverse
  obtain ⟨rH, _, _, hrH⟩ := h.exists_rank
  obtain ⟨rG, _, _, hrG⟩ := hr.exists_rank
  have hside : ∀ {v}, (c.graph.net.signature? v).isSome → ¬ ((c.copiedNet r g ι).signature? v).isSome :=
    fun hv hG => by
      rcases hcopy.isUnion.disjoint _ with hnone | hnone
      · rw [hnone] at hv; cases hv
      · rw [show (c.copiedNet r g ι).signature? _ = none from hnone] at hG; cases hG
  obtain ⟨rank, hlayered, hinner⟩ := Net.exists_layered (fun v => rG (κ v))
    (fun v w hvw => hrH v w (hB v w hvw)) hearly fun v w hvw => by
      obtain ⟨hv, hw⟩ := h.threaded.toFitted.live_of_before (hB v w hvw)
      exact ⟨hside hv, hside hw⟩
  have hranked : r.graph.net.Ranked fun v => (toLex (1, rG v) : ℕ ×ₗ ℕ) := fun v w hvw =>
    lt_within_class (hrG v w hvw)
  refine ⟨rank, hlayered, hcopy.isImage.ranked hr.threaded.toFitted hranked fun v hv => ?_⟩
  rw [hinner, hκ v (signature?_iff.mp hv)]
  obtain ⟨sig, hsig⟩ := Option.isSome_iff_exists.mp hv
  exact Option.isSome_iff_exists.mpr ⟨sig, hcopy.isImage.signature hsig⟩

lemma exists_straddles (hr : r.Wired unitG) (hcopy : IsCopy c.graph r.graph g ι keepNames)
    {R : Vertex → Prop} (hB : ∀ v w, B v w → c.graph.net.Before v w)
    (hconvex : Net.Convex B R) : ∃ rank : Vertex → ℕ ×ₗ ℕ,
      Straddles B R (fun v => ((c.copiedNet r g ι).signature? v).isSome) rank ∧
      (c.copiedNet r g ι).Ranked rank := by
  obtain ⟨rank, hlayered, hranked⟩ := exists_layered h hr hcopy hB fun hvw => Net.Leads.head hvw
  exact ⟨rank, hlayered.straddles hconvex, hranked⟩

lemma matched_iff (hhole : c.IsHole unit hole) (hsuits : c.Suits r hole) {l : Link} (hl : c.graph.HasLink l)
    (hs : hole.interior.contains l.source.vertex) :
    Matched (c.slotsAt ι (r.slots hole)) l ↔ ¬ ∃ m, c.graph.HasLink m ∧ m.kind.isLinear ∧
      m.source = l.source ∧ hole.interior.contains m.target.vertex := by
  constructor
  · rintro ⟨s, hs, x, hx, hsource⟩ ⟨m, hm, hlin, hsource', hin⟩
    obtain ⟨y, hy, rfl⟩ := mem_map.mp hs
    obtain ⟨e, he, hxe⟩ := exit_of_slotOf hx
    obtain ⟨_, _, hx', hxlin, hout, _⟩ := (hhole.isSlot (ι := ι) hy).exit he
    cases Option.mem_unique hxe hx'
    exact hout (h.threaded.out_unique ⟨e, hxe⟩ hm hxlin hlin (hsource.trans hsource'.symm) ▸ hin)
  · intro hnot
    -- the value that is read goes on along a wire
    have hwire := h.threaded.source_wire hl
    obtain ⟨m, ⟨e, hm⟩, hlin, hsource⟩ :=
      (h.complete.drained_iff hwire (isLinear_carrier _)).mpr (hhole.not_isInput h.toFramed hs).2
    have hout : ¬ hole.interior.contains m.target.vertex := fun hin => hnot ⟨m, ⟨e, hm⟩, hlin, hsource, hin⟩
    obtain ⟨_, hslot⟩ := hhole.leaves h hm hlin (by rw [hsource]; exact hs) hout
    obtain ⟨u, _, hx⟩ := hsuits.exists_unit_of_slot hslot
    refine ⟨_, mem_map_of_mem hx, m, ?_, hsource⟩
    obtain ⟨_, hm', hexit⟩ := hhole.exit_eq hx rfl
    cases Option.mem_unique hm hm'
    exact hexit

lemma substitute_eq (hr : r.Wired unitG) (hcheck : c.checkHole r hole = .ok a)
    (hpolicy : policy.check c.opgroups r.opgroups = .ok ())
    (hslotted : ∀ {g ι}, IsCopy c.graph r.graph g ι policy.keepsNames → Slotted c.graph.net (c.copiedNet r g ι) c.IsInput c.IsOutput (c.slotsAt ι (r.slots hole)))
    (hexit : ∀ {x e}, x ∈ r.slots hole → x.2.2 = some e → ∃ l, c.graph.edges.get? e = some l) (deletion : Deletion) :
    ∃ (g : Graph) (ι : Vertex → Vertex) (rest : Leftovers) (g₂ : Graph), substitute r hole deletion policy c = (do
        let rest ← hole.reads.foldlM connectRead rest
        clearHole rest hole.interior deletion
        addPhase r.phase) { c with graph := g₂, opgroups := mergedOpgroups policy c.opgroups r.opgroups } ∧
      IsCopy c.graph r.graph g ι policy.keepsNames ∧
      Ready c { c with graph := g, opgroups := mergedOpgroups policy c.opgroups r.opgroups } (c.copiedNet r g ι) ι
        (r.slots hole) ∧
      Connected c { c with graph := g, opgroups := mergedOpgroups policy c.opgroups r.opgroups } (c.copiedNet r g ι) ι
        (r.slots hole) g₂ ∧
      LeftBy c.graph g ι (r.slots hole) rest := by
  have hsuits := checkHole_eq_ok h.valid hr.valid hcheck
  obtain ⟨copies, g, ι, hcopyIn, hcopy, hcopies⟩ := copyIn_run h hr hpolicy
  have hready := ready_of_copy h hr hsuits hcopy (mergedOpgroups policy c.opgroups r.opgroups) (hslotted hcopy) hexit
  obtain ⟨rest, g₂, hslots, hconnected, hleft⟩ := hready.connectSlots_run copies fun x hx =>
    getEnds_of_live hcopies hr.toFramed (mem_slots hx).1
  refine ⟨g, ι, rest, g₂, ?_, hcopy, hready, hconnected, hleft⟩
  unfold substitute
  rw [bind_ok (ask_of_ok hcheck), bind_ok hcopyIn, bind_ok hslots]

lemma substitute_run (hr : r.Wired unitG) (hhole : c.IsHole unit hole)
    (hcheck : c.checkHole r hole = .ok a) (hpolicy : policy.check c.opgroups r.opgroups = .ok ())
    (hleak : ¬ c.Leaks hole.interior) (deletion : Deletion) :
    ∃ c', substitute r hole deletion policy c = .ok ⟨⟩ c' ∧ (deletion = .keep → c'.graph.Valid ∧
      ∀ {v o}, hole.interior.contains v → c.graph.kind? v = some (.op o) → c'.graph.kind? v = some (.op o)) ∧
      (deletion = .delete → ∃ g ι unit',
      (∀ p, c.graph.Live p.vertex → unit' p = unit p) ∧ Substituted c r hole policy c' unit' g ι) := by
  have hsuits := checkHole_eq_ok h.valid hr.valid hcheck
  obtain ⟨g, ι, _, _, hrun, hcopy, hready, hconnected, hleft⟩ := substitute_eq h hr hcheck hpolicy
    (hhole.slotted_of_copy h hr hsuits) (fun hx he => (hhole.exit_eq (ι := id) hx he).imp fun _ hl => hl.1) deletion
  obtain ⟨unit', hunit, hguest, hends⟩ := exists_names hr hhole hsuits hcopy
  have hfits := fits_of_copy h hr hhole hsuits hcopy hunit hguest hends
  have hmatched : ∀ {l}, c.graph.HasLink l → l.kind = .boolean → hole.interior.contains l.source.vertex →
      ¬ hole.interior.contains l.target.vertex → Matched (c.slotsAt ι (r.slots hole)) l :=
    fun {l} hl hk hs ht => (matched_iff h hhole hsuits hl hs).mpr fun ⟨m, hm, hlin, hsource, hin⟩ =>
      hleak ⟨l, m, hl, hk, ht, hm, hlin, hsource, by rw [hsource]; exact hs, hin⟩
  have hplug : Plug c.graph.net (c.copiedNet r g ι) (fun v => hole.interior.contains v) unit' c.IsInput
      c.IsOutput (c.slotsAt ι (r.slots hole)) :=
    { hfits with
      leaves := fun {l} hl hs ht => by
        by_cases hlin : l.kind.isLinear
        · obtain ⟨e, he⟩ := hl
          obtain ⟨_, hslot⟩ := hhole.leaves h he hlin hs ht
          obtain ⟨u, _, hx⟩ := hsuits.exists_unit_of_slot hslot
          obtain ⟨x, hx', hexit⟩ := hhole.exit_eq hx rfl
          cases Option.mem_unique he hx'
          exact ⟨_, mem_map_of_mem hx, l, hexit, rfl⟩
        · obtain ⟨s, hs, x, hx, hsource⟩ := hmatched hl (eq_boolean hlin) hs ht
          exact ⟨s, hs, x, hx, hsource.symm⟩ }
  -- links alone decide if the filled net has a cycle
  obtain ⟨rank, hstraddles, hranked⟩ := exists_straddles h hr hcopy
    (fun v w ⟨l, hl, hs, ht⟩ => hs ▸ ht ▸ .link hl) hsuits.convex
  have hclimbs := hplug.climbs (hplug.room (fun l hl => ⟨l, hl, rfl, rfl⟩) hstraddles) hranked.climbs
  obtain ⟨_, _, _, hrankH⟩ := h.exists_rank
  have hrunning : (Net.plug c.graph.net (c.copiedNet r g ι) (fun v => hole.interior.contains v)
      (c.slotsAt ι (r.slots hole))).Running unit' c.IsInput c.IsOutput rank :=
    ⟨hplug.threaded, hplug.complete, hclimbs⟩
  obtain ⟨_, hfill, hkept, hcleared⟩ := hready.fill_run (fun hv => (hplug.inner hv).1) And.left
    (fun {e} => hhole.reads.trans (exists_congr fun l => and_congr_right fun hl => (and_iff_right ⟨e, hl⟩).symm))
    (fun hgraft => ⟨IsGraft.off_eq hplug.toSeated hplug.leaves hgraft, IsGraft.aside hplug.toSeated hplug.leaves hgraft
      (fun {l} hl => hrankH.climbs.no_loop l hl) fun {l} hl => hranked.climbs.no_loop l hl⟩)
    hrunning.strung hplug.single_of_seam hconnected r.phase deletion h.simple hhole.reads_nodup
    (fun {l} hl => hmatched hl.1 hl.2.1 hl.2.2.1 hl.2.2.2) hleft
  refine ⟨_, hrun.trans hfill, fun hkeep => ⟨(hkept hkeep).1, fun {v o} hv hk => ?_⟩, fun hdelete =>
    ⟨g, ι, unit', hunit, ⟨hcopy, hready.of_graph rfl, hplug.inner, hcleared hdelete, rfl⟩, hplug⟩⟩
  have hold := hready.old hk
  exact ((hkept hkeep).2 hv).trans ((congrArg (Option.map _) hold).trans (congrArg some (touched_op hold)))

/-- **A substitution into a hole from which a value leaks is refused**, when the copies already stand in the host. -/
theorem substitute_error (hr : r.Wired unitG) (hhole : c.IsHole unit hole) {a : Unit}
    (hcheck : c.checkHole r hole = .ok a) (hpolicy : policy.check c.opgroups r.opgroups = .ok ())
    (hleak : c.Leaks hole.interior) (deletion : Deletion) :
    ∃ c', substitute r hole deletion policy c = .error (.invalid .holeReadUnmatched) c' ∧
      ∃ v, c'.graph.Live v ∧ ¬ c.graph.Live v := by
  have hsuits := checkHole_eq_ok h.valid hr.valid hcheck
  obtain ⟨g, ι, _, g₂, hrun, hcopy, hready, hconnected, hleft⟩ := substitute_eq h hr hcheck hpolicy
    (hhole.slotted_of_copy h hr hsuits) (fun hx he => (hhole.exit_eq (ι := id) hx he).imp fun _ hl => hl.1) deletion
  obtain ⟨l, m, hl, hk, ht, hm, hlin, hsource, hs, hin⟩ := hleak
  rw [hsource] at hs
  obtain ⟨_, hreads, hvert⟩ := hready.connectRead_error h.simple hconnected hleft hhole.reads_nodup
    (fun e he => (hhole.reads.mp he).imp fun l hl => hl.1) (by
      obtain ⟨e, he⟩ := hl
      refine ⟨e, hhole.reads.mpr ⟨l, he, hk, hs, ht⟩, ?_⟩
      rintro ⟨_, hl', hmatched⟩
      cases Option.mem_unique he hl'
      exact (matched_iff h hhole hsuits ⟨e, he⟩ hs).mp hmatched ⟨m, hm, hlin, hsource, hin⟩)
  refine ⟨_, by rw [hrun, bind_error hreads], ?_⟩
  -- the wire that is read enters the hole somewhere, so the replacement has a unit
  obtain ⟨b, ⟨e, hb⟩, hblin, hbout, hbin, _⟩ :=
    hhole.exists_entry h (h.threaded.target_wire hm) hlin hin
  obtain ⟨x, hslot⟩ := hhole.enters hb hblin hbout hbin
  obtain ⟨u, ends, hx⟩ := hsuits.exists_unit_of_slot hslot
  obtain ⟨k, hk', _⟩ := hr.starts (mem_slots hx).1
  refine ⟨ι ends.input, ?_, hcopy.toHosts.not_live (live_of_kind? hk')⟩
  exact (live_congr hvert).mpr (hconnected.live.mpr (live_of_kind? (hcopy.kind?_new hk')))

end

end Circuit

end Wireloom
