import SchemaLayout.Proofs.Session.Operations
import SchemaLayout.Proofs.Tree.Embedding
import SchemaLayout.Proofs.Tree.Refusal

/-!
# The first error

A list of nodes that cannot be laid out is refused for one reason, however much is wrong with it: a
node that is listed twice comes before everything else, then come the nodes in the order in which
they are listed, and of what is wrong with the relationships of one node the first thing that
reading them meets. `Network.Refuses` says which reason this is, and layouts and sessions report it
as it is.

Nothing else is ever in the way of nodes that the diagram holds: if they are consistent, they have a
network, a layout and an animation.
-/

namespace SchemaLayout

open Traversal

section

variable {δ ι : Type} [Diagram δ ι] {diagram : δ} {nodes : List ι} {node : ι} {e : LayoutError ι}

/-! ## Consistent nodes -/

/-- A diagram holds all nodes of a list, so that they can be asked for their size and position. -/
def Diagram.Holds (diagram : δ) (nodes : List ι) : Prop :=
  ∀ node ∈ nodes, (Diagram.size? diagram node).isSome ∧ (Diagram.position? diagram node).isSome

/-- No node is listed twice, the relationships of all nodes can be read, and none of them leads out
of the list. -/
structure Network.Consistent (diagram : δ) (nodes : List ι) : Prop where
  nodup : nodes.Nodup
  related : ∀ node ∈ nodes, ∃ exported imported,
    Diagram.exported diagram node = .ok exported ∧ Diagram.imported diagram node = .ok imported ∧
      ∀ other ∈ exported ++ imported, other ∈ nodes

theorem Network.Resolves.consistent {network : Network Coord nodes.length}
    (h : network.Resolves diagram (listed nodes)) : Network.Consistent diagram nodes :=
  ⟨injective_get_listed.mp h.injective, fun _ hnode => h.exists_related hnode⟩

/-- Nodes of the diagram have a network exactly if they are consistent. -/
theorem Network.exists_resolves_iff (hholds : Diagram.Holds diagram nodes) :
    (∃ network : Network Coord nodes.length, network.Resolves diagram (listed nodes)) ↔
      Network.Consistent diagram nodes := by
  constructor
  · rintro ⟨network, hresolves⟩
    exact hresolves.consistent
  · intro h
    apply exists_resolves h.nodup h.related
    intro node hnode
    exact Option.isSome_iff_exists.mp (hholds node hnode).1

/-! ## Sessions -/

/-- An animation can only fail to start for want of a node. -/
theorem Animation.exists_eq_missingNode_of_start [BEq ι] {placements : Placements ι}
    {frames : UInt32} (h : start diagram placements nodes frames = .error e) :
    ∃ node, e = .missingNode node := by
  rcases bind_eq_error_iff.mp h with hmoves | ⟨moves, -, hreturn⟩
  · obtain ⟨⟨node, target⟩, -, hmove⟩ := mapM_eq_error_iff.mp hmoves
    simp only [moveFrom] at hmove
    split at hmove
    · cases hmove
    · cases hmove
      exact ⟨node, rfl⟩
  · cases hreturn

variable [BEq ι] [LawfulBEq ι] [Hashable ι] {session : Session ι} {origin : Point}

/-- Nodes of the diagram that have a layout are set up. -/
theorem Session.setup_eq_ok {layout : TreeLayout ι} (hholds : Diagram.Holds diagram nodes)
    (hlayout : treeLayout session.settings.gaps diagram nodes origin = .ok layout) :
    (session.setup diagram nodes origin).result = .ok () := by
  obtain ⟨network, filling, haccepted, rfl⟩ := treeLayout_eq_ok_iff.mp hlayout
  have hposition (node : ι) (hnode : node ∈ nodes) :
      ∃ position, Diagram.position? diagram node = some position :=
    Option.isSome_iff_exists.mp (hholds node hnode).2
  have hplace (node : ι) (hnode : node ∈ nodes) := haccepted.exists_find?_of_mem hnode
  choose! target htarget using hplace
  obtain ⟨animation, source, -, -, -, -, hsetup⟩ :=
    exists_setup_yields session hlayout hposition htarget
  exact hsetup.result_eq

/-- A session reports why its nodes are refused, and no other error but that a node is missing. -/
theorem Session.setup_eq_error_iff (he : ∀ node, e ≠ .missingNode node) :
    (session.setup diagram nodes origin).result = .error e ↔
      Network.Refuses diagram nodes e := by
  rw [← treeLayout_eq_error_iff]
  constructor
  · intro hresult
    cases hlayout : treeLayout session.settings.gaps diagram nodes origin with
    | error e' =>
      rw [(setup_fails hlayout).result_eq, Except.error.injEq] at hresult
      rw [hresult]
    | ok layout =>
      unfold setup at hresult
      simp only [hlayout] at hresult
      split at hresult <;> rename_i hstart
      · cases hresult
        obtain ⟨node, rfl⟩ := Animation.exists_eq_missingNode_of_start hstart
        exact absurd rfl (he node)
      · cases hresult
  · intro hlayout
    exact (setup_fails hlayout).result_eq

end

/-! ## One reason -/

/-- A list of nodes is refused for the reason that comes first in a fixed order, and this reason is
what its network, its layouts and its sessions report. A network that is found names the same
relationships as the diagram does, at each of the nodes. If the diagram holds the nodes, then the
network, the layouts and the animations exist exactly if the nodes are consistent. -/
theorem first_error_reported {δ ι : Type} [Diagram δ ι] [BEq ι] [LawfulBEq ι] [Hashable ι]
    (diagram : δ) (nodes : List ι) :
    (∀ e, Network.resolve diagram (listed nodes) = .error e ↔ Network.Refuses diagram nodes e) ∧
    (∀ gaps origin e, treeLayout gaps diagram nodes origin = .error e ↔
      Network.Refuses diagram nodes e) ∧
    (∀ (session : Session ι) origin e, (∀ node, e ≠ .missingNode node) →
      ((session.setup diagram nodes origin).result = .error e ↔
        Network.Refuses diagram nodes e)) ∧
    (∀ network, Network.resolve diagram (listed nodes) = .ok network →
      (listed nodes).toList = nodes ∧ network.sizes.toList.length = nodes.length ∧
        network.related.toList.length = nodes.length ∧
        ∀ i, ∃ exported imported, Diagram.exported diagram (nodes.get i) = .ok exported ∧
          Diagram.imported diagram (nodes.get i) = .ok imported ∧
          (network.related.get i).map nodes.get = exported ++ imported) ∧
    (Diagram.Holds diagram nodes →
      (∀ node, ¬ Network.Refuses diagram nodes (.missingNode node)) ∧
      ((∃ network, Network.resolve diagram (listed nodes) = .ok network) ↔
        Network.Consistent diagram nodes) ∧
      (∀ gaps origin, (∃ layout, treeLayout gaps diagram nodes origin = .ok layout) ↔
        Network.Consistent diagram nodes) ∧
      ∀ (session : Session ι) origin, (session.setup diagram nodes origin).result = .ok () ↔
        Network.Consistent diagram nodes) := by
  refine ⟨fun e => Network.resolve_eq_error_iff, fun gaps origin e => treeLayout_eq_error_iff,
    fun session origin e he => Session.setup_eq_error_iff he, ?_, ?_⟩
  · intro network hnetwork
    refine ⟨rfl, network.sizes.length_toList, network.related.length_toList, ?_⟩
    exact (Network.resolve_eq_ok_iff.mp hnetwork).related
  · intro hholds
    have hlayout (gaps : Gaps) (origin : Point) :
        (∃ layout, treeLayout gaps diagram nodes origin = .ok layout) ↔
          Network.Consistent diagram nodes := by
      rw [← Network.exists_resolves_iff hholds]
      constructor
      · rintro ⟨layout, hlayout⟩
        obtain ⟨network, filling, haccepted, -⟩ := treeLayout_eq_ok_iff.mp hlayout
        exact ⟨network, haccepted.resolves⟩
      · rintro ⟨network, hresolves⟩
        obtain ⟨layout, hlayout, -⟩ := exists_treeLayout_eq_ok hresolves gaps origin
        exact ⟨layout, hlayout⟩
    refine ⟨fun node hrefuses => ?_, ?_, hlayout, ?_⟩
    · exact hrefuses.ne_missingNode (fun node hnode => (hholds node hnode).1) node rfl
    · simp only [Network.resolve_eq_ok_iff]
      exact Network.exists_resolves_iff hholds
    · intro session origin
      rw [← hlayout session.settings.gaps origin]
      constructor
      · intro hresult
        cases hlayout : treeLayout session.settings.gaps diagram nodes origin with
        | ok layout => exact ⟨layout, rfl⟩
        | error e =>
          rw [(Session.setup_fails hlayout).result_eq] at hresult
          cases hresult
      · rintro ⟨layout, hlayout⟩
        exact Session.setup_eq_ok hholds hlayout

/-- Of the broken ring, a table listed twice is reported before the relationships that cannot be
read, these before a relationship of the same table that leads out of the list, but such a
relationship of an earlier table before them. The ring itself is consistent. -/
theorem first_error_reported_brokenRing :
    treeLayout .standard brokenRing [⟨1⟩, ⟨0⟩, ⟨1⟩] .zero = .error (.duplicateNode ⟨1⟩) ∧
      ((Session.ofSettings ⟨true, 3, .standard⟩).setup brokenRing [⟨1⟩, ⟨0⟩] .zero).result =
        .error (.modelAccess ⟨1⟩ "gone") ∧
      Network.resolve brokenRing (listed [⟨0⟩, ⟨1⟩]) = .error (.foreignNode ⟨0⟩ ⟨2⟩) ∧
      ∃ network, Network.resolve Schema.ring (listed [⟨0⟩, ⟨1⟩, ⟨2⟩]) = .ok network := by
  have hnone {P : TableId → Prop} : ∀ id ∈ ([] : List TableId), ¬ P id :=
    fun id hid => absurd hid List.not_mem_nil
  have hrepeats : [⟨1⟩, ⟨0⟩, ⟨1⟩] = [⟨1⟩, ⟨0⟩] ++ (⟨1⟩ : TableId) :: [] := rfl
  have hread : Network.Objects brokenRing [⟨1⟩, ⟨0⟩] ⟨1⟩ (.modelAccess ⟨1⟩ "gone") :=
    .imported rfl rfl
  have hforeign : Network.Objects brokenRing [⟨0⟩, ⟨1⟩] ⟨0⟩ (.foreignNode ⟨0⟩ ⟨2⟩) :=
    .foreign rfl rfl ⟨⟨[⟨1⟩, ⟨0⟩], [⟨0⟩], rfl, by decide⟩, by decide⟩
  have hmissing (id : TableId) : LayoutError.modelAccess ⟨1⟩ "gone" ≠ .missingNode id := nofun
  refine ⟨?_, ?_, ?_, ?_⟩
  · apply ((first_error_reported brokenRing [⟨1⟩, ⟨0⟩, ⟨1⟩]).2.1 ..).mpr
    exact .duplicate hrepeats (by decide) (by decide)
  · apply ((first_error_reported brokenRing [⟨1⟩, ⟨0⟩]).2.2.1 _ _ _ hmissing).mpr
    exact .related (by decide) ⟨⟨[], [⟨0⟩], rfl, hnone⟩, _, hread⟩ hread
  · apply ((first_error_reported brokenRing [⟨0⟩, ⟨1⟩]).1 _).mpr
    exact .related (by decide) ⟨⟨[], [⟨1⟩], rfl, hnone⟩, _, hforeign⟩ hforeign
  · apply ((first_error_reported Schema.ring [⟨0⟩, ⟨1⟩, ⟨2⟩]).2.2.2.2 ?_).2.1.mpr
    · exact accepted_ring.resolves.consistent
    · unfold Diagram.Holds
      decide

end SchemaLayout
