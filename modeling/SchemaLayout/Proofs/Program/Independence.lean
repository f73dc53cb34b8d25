import SchemaLayout.Proofs.Program.LayOut
import SchemaLayout.Proofs.Schema.Growth
import SchemaLayout.Proofs.Tree.Embedding
import SchemaLayout.Proofs.Tree.Roots

/-!
# Independence of unrelated tables

Lists of tables that can be laid out on their own and that have no table in common are laid out one
after the other, each as if the other were not there. So no table is moved by tables that are added
to the schema, as long as these are related to each other only.
-/

namespace SchemaLayout

namespace Schema

variable {s t : Schema} {added : List TableId} {gaps : Gaps} {settings : Settings} {origin : Point}
  {layout whole : TreeLayout TableId} {tables tables' : List TablePosition}

/-! ## Old tables and added ones -/

/-- Added tables are related to added tables only. -/
theorem Extends.mem_added_of_related (h : Extends s t added) (hs : s.WellFormed)
    (ht : t.WellFormed) {u v : TableId} (hu : u ∈ added)
    (hv : v ∈ t.exported u ++ t.imported u) : v ∈ added := by
  have hmem := ht.mem_tableIds_of_related hv
  rw [h.tableIds] at hmem
  rcases List.mem_append.mp hmem with hold | hnew
  · -- a relationship of an old table is one of the old schema, and leads to an old table
    have hback : u ∈ s.exported v ++ s.imported v := by
      rw [← h.exported v hold, ← h.imported v hold, List.mem_append, or_comm,
        ht.mem_exported_iff, ← ht.mem_exported_iff (u := u)]
      exact List.mem_append.mp hv
    exact absurd hu (h.disjoint (hs.mem_tableIds_of_related hback))
  · exact hnew

/-- The added tables can be laid out on their own. -/
theorem Extends.exists_resolves_added (h : Extends s t added) (hs : s.WellFormed)
    (ht : t.WellFormed) :
    ∃ network : Network Coord added.length, network.Resolves t (listed added) := by
  have hnodup := t.nodup_tableIds
  rw [h.tableIds] at hnodup
  refine exists_resolves hnodup.of_append_right ?_ fun id hid => exists_size?_of_mem ?_
  · exact fun id hid => ⟨t.exported id, t.imported id, rfl, rfl, fun _ =>
      h.mem_added_of_related hs ht hid⟩
  · rw [h.tableIds]
    exact List.mem_append_right s.tableIds hid

/-- The old tables are resolved as before. -/
theorem Extends.resolves (h : Extends s t added) {network : Network Coord s.tableIds.length}
    (hresolves : network.Resolves s (listed s.tableIds)) :
    network.Resolves t (listed s.tableIds) := by
  have hmem (i : Fin s.tableIds.length) : (listed s.tableIds).get i ∈ s.tableIds :=
    List.get_mem s.tableIds i
  refine hresolves.congr (fun i => ?_) (fun i => ?_) fun i => ?_
  · exact congrArg Except.ok (h.exported _ (hmem i))
  · exact congrArg Except.ok (h.imported _ (hmem i))
  · exact h.size _ (hmem i)

/-- The layout of all tables begins with that of the old ones, which is as before. -/
theorem Extends.exists_joined (h : Extends s t added) (hs : s.WellFormed) (ht : t.WellFormed)
    (hlayout : treeLayout gaps s s.tableIds origin = .ok layout) : ∃ layout' whole,
    treeLayout gaps t t.tableIds origin = .ok whole ∧
      TreeLayout.Joined s.tableIds added layout layout' whole := by
  obtain ⟨network, filling, haccepted, rfl⟩ := treeLayout_eq_ok_iff.mp hlayout
  obtain ⟨network', hresolves'⟩ := h.exists_resolves_added hs ht
  have hold : Accepted gaps t s.tableIds origin network filling :=
    ⟨h.resolves haccepted.resolves, haccepted.fills⟩
  have hnew : Accepted gaps t added filling.finish network' _ :=
    ⟨hresolves', Columns.fills_place ..⟩
  rw [h.tableIds]
  obtain ⟨whole, hwhole, hjoined⟩ := hold.exists_joined hnew h.disjoint
  exact ⟨_, whole, hwhole, hjoined⟩

/-- What is told of the old tables is told first. -/
theorem Extends.prefix_of_told (h : Extends s t added)
    (hfind : ∀ id ∈ s.tableIds, ∃ position, layout.placements.find? id = some position ∧
      whole.placements.find? id = some position)
    (htold : List.Forall₂ (s.Tells layout.placements) s.tableIds tables)
    (htold' : List.Forall₂ (t.Tells whole.placements) t.tableIds tables') :
    tables <+: tables' := by
  rw [h.tableIds] at htold'
  have hold := (List.forall₂_take_append _ _ _ htold'.flip).flip
  suffices htables : tables = tables'.take s.tableIds.length by
    rw [htables]
    exact List.take_prefix ..
  -- the old schema tells the same of its tables
  refine (rightUnique_tells s layout.placements).forall₂ htold ?_
  refine ((List.forall₂_and_left _ _).mpr ⟨fun _ hid => hid, hold⟩).imp ?_
  rintro id entry ⟨hid, hname, hplace⟩
  obtain ⟨position, hfirst, hwhole⟩ := hfind id hid
  exact ⟨(h.name id hid).symm.trans hname, hfirst.trans (hwhole.symm.trans hplace)⟩

end Schema

/-! ## Independence -/

/-- Lists that have no node in common and that can each be laid out on their own are laid out one
after the other: the first list from the origin, and the second from where the first has ended, as
if there was nothing else. So a schema that grows by tables that are related to each other only is
laid out with all of its old tables where they would be without the new ones, and the positions of
the old tables are printed as they would be. -/
theorem treeLayout_independent :
    (∀ {δ ι : Type} [Diagram δ ι] [BEq ι] [Hashable ι] [LawfulBEq ι] {gaps : Gaps} {diagram : δ}
      {nodes nodes' : List ι} {origin elsewhere : Point} {layout other : TreeLayout ι},
      treeLayout gaps diagram nodes origin = .ok layout →
      treeLayout gaps diagram nodes' elsewhere = .ok other → nodes.Disjoint nodes' →
      ∃ layout' whole, treeLayout gaps diagram nodes' layout.finish = .ok layout' ∧
        treeLayout gaps diagram (nodes ++ nodes') origin = .ok whole ∧
        TreeLayout.Joined nodes nodes' layout layout' whole) ∧
    ∀ {s t : Schema}, s.Reachable → s.Grows t → ∀ (settings : Settings) (origin : Point),
      ∃ layout whole tables tables',
        treeLayout settings.gaps s s.tableIds origin = .ok layout ∧
          treeLayout settings.gaps t t.tableIds origin = .ok whole ∧
          (∀ id ∈ s.tableIds, ∃ position, layout.placements.find? id = some position ∧
            whole.placements.find? id = some position) ∧
          s.LaidOut layout tables (s.layOut settings origin) ∧
          t.LaidOut whole tables' (t.layOut settings origin) ∧ tables <+: tables' := by
  constructor
  · intro δ ι _ _ _ _ gaps diagram nodes nodes' origin elsewhere layout other hlayout hother
      hdisjoint
    obtain ⟨network, filling, haccepted, rfl⟩ := treeLayout_eq_ok_iff.mp hlayout
    obtain ⟨network', filling', haccepted', -⟩ := treeLayout_eq_ok_iff.mp hother
    -- what resolves the second list does so wherever it is laid out
    have hsecond : Accepted gaps diagram nodes' filling.finish network' _ :=
      ⟨haccepted'.resolves, Columns.fills_place ..⟩
    obtain ⟨whole, hwhole, hjoined⟩ := haccepted.exists_joined hsecond hdisjoint
    exact ⟨_, whole, treeLayout_eq_ok_iff.mpr ⟨_, _, hsecond, rfl⟩, hwhole, hjoined⟩
  · intro s t hs h settings origin
    have ht := h.reachable hs
    obtain ⟨added, hextends⟩ := h.exists_extends
    obtain ⟨layout, tables, hlayout, -, hlaidOut, -⟩ := hs.exists_laidOut (.refl s) rfl origin
    obtain ⟨all, tables', hall, -, hlaidOut', -⟩ := ht.exists_laidOut (.refl t) rfl origin
    obtain ⟨layout', whole, hwhole, hjoined⟩ :=
      hextends.exists_joined hs.wellFormed ht.wellFormed hlayout
    obtain rfl : whole = all := Except.ok.inj (hwhole.symm.trans hall)
    exact ⟨layout, whole, tables, tables', hlayout, hwhole, hjoined.first, hlaidOut, hlaidOut',
      hextends.prefix_of_told hjoined.first hlaidOut.told hlaidOut'.told⟩

/-! ## An example -/

/-- The island on its own is at the origin, and a gap below it something else may begin. -/
theorem accepted_island :
    Accepted .standard ringAndIsland [⟨3⟩] .zero ⟨.replicate 1 ⟨100, 50⟩, #v[[]]⟩
      ⟨#v[some ⟨0, 0⟩], ⟨0, 60⟩⟩ := by
  refine ⟨⟨by decide, fun i => ⟨[], [], ?_, ?_, ?_⟩, by decide⟩, .visit rfl .nil .nil⟩ <;>
    obtain rfl := Fin.fin_one_eq_zero i <;> rfl

/-- The ring goes below the island if it is listed after it, and stays where it is if an island that
refers to itself is added to it. -/
theorem treeLayout_independent_ring :
    (∃ layout layout' whole, treeLayout .standard ringAndIsland [⟨3⟩] .zero = .ok layout ∧
      treeLayout .standard ringAndIsland [⟨0⟩, ⟨1⟩, ⟨2⟩] layout.finish = .ok layout' ∧
      treeLayout .standard ringAndIsland [⟨3⟩, ⟨0⟩, ⟨1⟩, ⟨2⟩] .zero = .ok whole ∧
      TreeLayout.Joined [⟨3⟩] [⟨0⟩, ⟨1⟩, ⟨2⟩] layout layout' whole) ∧
    ∃ t, ringAndIsland.addRelationship? ⟨3⟩ ⟨3⟩ = some t ∧ ∃ layout whole tables tables',
      treeLayout .standard Schema.ring Schema.ring.tableIds .zero = .ok layout ∧
        treeLayout .standard t t.tableIds .zero = .ok whole ∧
        (∀ id ∈ Schema.ring.tableIds, ∃ position,
          layout.placements.find? id = some position ∧
            whole.placements.find? id = some position) ∧
        Schema.ring.LaidOut layout tables (Schema.ring.layOut ⟨true, 3, .standard⟩ .zero) ∧
        t.LaidOut whole tables' (t.layOut ⟨true, 3, .standard⟩ .zero) ∧ tables <+: tables' := by
  have hisland := treeLayout_eq_ok_iff.mpr ⟨_, _, accepted_island, rfl⟩
  -- the ring is resolved as it is without the island
  have hresolves : ringNetwork.Resolves ringAndIsland (listed [⟨0⟩, ⟨1⟩, ⟨2⟩]) :=
    accepted_ring.resolves.congr (fun _ => congrArg Except.ok (Schema.exported_addTable ..))
      (fun _ => congrArg Except.ok (Schema.imported_addTable ..)) (by decide)
  obtain ⟨other, hother, -⟩ := exists_treeLayout_eq_ok hresolves .standard .zero
  refine ⟨?_, ?_⟩
  · obtain ⟨layout', whole, hlayout', hwhole, hjoined⟩ :=
      treeLayout_independent.1 hisland hother (List.singleton_disjoint.mpr (by decide))
    exact ⟨_, layout', whole, hisland, hlayout', hwhole, hjoined⟩
  · have hadd : ringAndIsland.addRelationship? ⟨3⟩ ⟨3⟩ =
        some (ringAndIsland.addRelationship ⟨3⟩ ⟨3⟩) :=
      Schema.addRelationship?_eq_some_iff.mpr ⟨by decide, rfl⟩
    have hgrows := (Schema.Grows.refl.addTable _).addRelationship (by decide) (by decide) hadd
    exact ⟨_, hadd, treeLayout_independent.2 Schema.reachable_ring hgrows ⟨true, 3, .standard⟩
      .zero⟩

end SchemaLayout
