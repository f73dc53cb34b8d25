import SchemaLayout.Proofs.Tree.Reach
import SchemaLayout.Proofs.Tree.Separation

/-!
# Networks within networks

A network is embedded in another one if its nodes are among those of the other, with the same sizes
and the same related nodes. A filling of the smaller network then is one of the larger network as
well: it never leaves the part, because nothing outside is related to anything inside, and it takes
no notice of what has a place outside.

The nodes of two lists, one of which is appended to the other, are embedded in this way if each of
the lists can be laid out on its own. The whole is then laid out as the first list followed by the
second, from where the first has ended.
-/

namespace SchemaLayout

/-- The map `f` takes the nodes of a network to nodes of another one that are alike. -/
structure Network.Embeds {α : Type} {m n : Nat} (f : Fin m → Fin n) (network : Network α m)
    (network' : Network α n) : Prop where
  injective : Function.Injective f
  sizes : ∀ i, network'.sizes.get (f i) = network.sizes.get i
  related : ∀ i, network'.related.get (f i) = (network.related.get i).map f

namespace Columns

variable {α : Type} {m n : Nat} {f : Fin m → Fin n} {network : Network α m}
  {network' : Network α n} {gaps : Gaps α} {start start' cursor : Point α}
  {placed : Vector (Option (Point α)) m} {placed' : Vector (Option (Point α)) n}
  {nodes : List (Fin m)} {filling : Filling α m}

/-- The nodes of the part have the places that they have in the whole. -/
def Within (f : Fin m → Fin n) (placed : Vector (Option (Point α)) m)
    (placed' : Vector (Option (Point α)) n) : Prop :=
  ∀ i, placed'.get (f i) = placed.get i

theorem Within.mark (h : Within f placed placed') (hf : Function.Injective f) (i : Fin m)
    (position : Point α) : Within f (mark placed i position) (mark placed' (f i) position) := by
  intro j
  by_cases hij : i = j
  · subst hij
    rw [get_mark_self, get_mark_self]
  · rw [get_mark_of_ne hij, get_mark_of_ne (hf.ne hij)]
    exact h j

/-- The nodes that are placed next are the same within the whole. -/
theorem Within.fresh (h : Within f placed placed') (he : Network.Embeds f network network')
    (i : Fin m) : fresh network' placed' (f i) = (fresh network placed i).map f := by
  unfold Columns.fresh
  rw [he.related, List.filter_map]
  refine congrArg (List.map f) (List.filter_congr fun j _ => ?_)
  rw [Function.comp_apply, h j]

variable [Add α] [Max α]

omit [Max α] in
theorem rightOf_embed (he : Network.Embeds f network network') (i : Fin m) (p : Point α) :
    rightOf network' gaps (f i) p = rightOf network gaps i p := by
  rw [rightOf, rightOf, he.sizes]

theorem below_embed (he : Network.Embeds f network network') (i : Fin m) (p finish : Point α) :
    below network' gaps (f i) p finish = below network gaps i p finish := by
  rw [below, below, he.sizes]

/-- A part is filled within the whole as it is on its own, and nothing else gets a place. -/
theorem Fills.embed (h : Fills network gaps start placed nodes cursor filling)
    (he : Network.Embeds f network network') (hwithin : Within f placed placed') :
    ∃ filling' : Filling α n, Fills network' gaps start placed' (nodes.map f) cursor filling' ∧
      filling'.finish = filling.finish ∧ Within f filling.placed filling'.placed ∧
      ∀ j ∉ Set.range f, filling'.placed.get j = placed'.get j := by
  induction h generalizing placed' with
  | nil => exact ⟨⟨placed', _⟩, .nil, rfl, hwithin, fun _ _ => rfl⟩
  | @skip _ _ i _ _ _ hplaced _ ih =>
    obtain ⟨filling', hfills, hfilling'⟩ := ih hwithin
    refine ⟨filling', .skip ?_ hfills, hfilling'⟩
    rwa [hwithin i]
  | @visit start placed i nodes cursor inner _ hfree _ _ ihright ihrest =>
    obtain ⟨inner', hright, hinner, hinner', houtside⟩ :=
      ihright (hwithin.mark he.injective i cursor)
    obtain ⟨outer', hrest, houter, houter', houtside'⟩ := ihrest hinner'
    have hfree' : placed'.get (f i) = none := by rwa [hwithin i]
    rw [← rightOf_embed he, ← (hwithin.mark he.injective i cursor).fresh he] at hright
    rw [← hinner, ← below_embed he] at hrest
    refine ⟨outer', .visit hfree' hright hrest, houter, houter', fun j hj => ?_⟩
    -- the visited node is one of the part
    have hne : f i ≠ j := fun hij => hj ⟨i, hij⟩
    rw [houtside' j hj, houtside j hj, get_mark_of_ne hne]

/-- Of the point at which a column begins only the first coordinate matters. -/
theorem Fills.of_start (h : Fills network gaps start placed nodes cursor filling)
    (hx : start.x = start'.x) : Fills network gaps start' placed nodes cursor filling := by
  induction h with
  | nil => exact .nil
  | skip hplaced _ ih => exact .skip hplaced (ih hx)
  | visit hfree right _ _ ihrest => exact .visit hfree right (hx ▸ ihrest hx)

end Columns

/-! ## Lists that are appended -/

section

variable {ι : Type}

/-- The number of a node of the first list. -/
def inFirst (first second : List ι) (i : Fin first.length) : Fin (first ++ second).length :=
  (i.castAdd second.length).cast List.length_append.symm

/-- The number of a node of the second list. -/
def inSecond (first second : List ι) (i : Fin second.length) : Fin (first ++ second).length :=
  (i.natAdd first.length).cast List.length_append.symm

variable (first second : List ι)

theorem get_inFirst (i : Fin first.length) :
    (listed (first ++ second)).get (inFirst first second i) = (listed first).get i :=
  List.getElem_append_left i.isLt

theorem get_inSecond (i : Fin second.length) :
    (listed (first ++ second)).get (inSecond first second i) = (listed second).get i := by
  refine (List.getElem_append_right (Nat.le_add_right first.length i)).trans ?_
  simp only [Nat.add_sub_cancel_left]
  rfl

/-- The nodes of the first list are numbered before those of the second. -/
theorem finRange_append : List.finRange (first ++ second).length =
    (List.finRange first.length).map (inFirst first second) ++
      (List.finRange second.length).map (inSecond first second) := by
  have hlength : (first ++ second).length = first.length + second.length := List.length_append
  calc List.finRange (first ++ second).length
      = List.ofFn fun i : Fin (first.length + second.length) => i.cast hlength.symm := by
        rw [← List.ofFn_id, List.ofFn_congr hlength]
        rfl
    _ = List.ofFn (inFirst first second) ++ List.ofFn (inSecond first second) :=
        List.ofFn_add ..
    _ = _ := by rw [List.ofFn_eq_map, List.ofFn_eq_map]

/-- No number is that of a node of either list. -/
theorem inFirst_ne_inSecond (i : Fin first.length) (j : Fin second.length) :
    inFirst first second i ≠ inSecond first second j := by
  intro h
  have hval : i.val = first.length + j.val := congrArg Fin.val h
  omega

end

/-! ## Layouts of appended lists -/

section

variable {δ ι : Type} [Diagram δ ι] {diagram : δ} {nodes nodes' : List ι}
  {network : Network Coord nodes.length} {network' : Network Coord nodes'.length}

/-- The network of some of the nodes of a list is embedded in the network of the list. -/
theorem Network.Resolves.embeds {f : Fin nodes.length → Fin nodes'.length}
    (h : network.Resolves diagram (listed nodes))
    (h' : network'.Resolves diagram (listed nodes'))
    (hf : ∀ i, (listed nodes').get (f i) = (listed nodes).get i) :
    Network.Embeds f network network' := by
  refine ⟨fun i j hij => h.injective ?_, fun i => ?_, fun i => ?_⟩
  · rw [← hf, ← hf, hij]
  · have hsize := h'.sizes (f i)
    rw [hf, h.sizes i] at hsize
    exact (Option.some.inj hsize).symm
  · obtain ⟨exported, imported, hexported, himported, hmap⟩ := h.related i
    obtain ⟨exported', imported', hexported', himported', hmap'⟩ := h'.related (f i)
    rw [hf, hexported] at hexported'
    rw [hf, himported] at himported'
    cases hexported'
    cases himported'
    -- both lists of numbers stand for the nodes that the diagram names
    refine List.map_injective_iff.mpr h'.injective ?_
    rw [hmap', ← hmap, List.map_map]
    exact List.map_congr_left fun j _ => (hf j).symm

/-- What is related to a resolved node is among the nodes. -/
theorem Network.Resolves.exists_related (h : network.Resolves diagram (listed nodes)) {node : ι}
    (hnode : node ∈ nodes) : ∃ exported imported,
      Diagram.exported diagram node = .ok exported ∧ Diagram.imported diagram node = .ok imported ∧
        ∀ other ∈ exported ++ imported, other ∈ nodes := by
  obtain ⟨i, rfl⟩ := exists_get_listed hnode
  obtain ⟨exported, imported, hexported, himported, hmap⟩ := h.related i
  refine ⟨exported, imported, hexported, himported, fun other hother => ?_⟩
  rw [← hmap] at hother
  obtain ⟨j, -, rfl⟩ := List.mem_map.mp hother
  exact List.get_mem nodes j

theorem Network.Resolves.exists_size (h : network.Resolves diagram (listed nodes)) {node : ι}
    (hnode : node ∈ nodes) : ∃ size, Diagram.size? diagram node = some size := by
  obtain ⟨i, rfl⟩ := exists_get_listed hnode
  exact ⟨_, h.sizes i⟩

/-- Lists that have no node in common are resolved together if each of them is on its own. -/
theorem Network.Resolves.exists_append (h : network.Resolves diagram (listed nodes))
    (h' : network'.Resolves diagram (listed nodes')) (hdisjoint : nodes.Disjoint nodes') :
    ∃ whole : Network Coord (nodes ++ nodes').length,
      whole.Resolves diagram (listed (nodes ++ nodes')) := by
  have hnodup := injective_get_listed.mp h.injective
  have hnodup' := injective_get_listed.mp h'.injective
  refine exists_resolves (hnodup.append hnodup' hdisjoint) ?_ ?_
  · intro node hnode
    rcases List.mem_append.mp hnode with hnode | hnode
    · obtain ⟨exported, imported, hexported, himported, hlisted⟩ := h.exists_related hnode
      exact ⟨exported, imported, hexported, himported, fun other hother =>
        List.mem_append_left nodes' (hlisted other hother)⟩
    · obtain ⟨exported, imported, hexported, himported, hlisted⟩ := h'.exists_related hnode
      exact ⟨exported, imported, hexported, himported, fun other hother =>
        List.mem_append_right nodes (hlisted other hother)⟩
  · intro node hnode
    rcases List.mem_append.mp hnode with hnode | hnode
    · exact h.exists_size hnode
    · exact h'.exists_size hnode

variable [BEq ι] [LawfulBEq ι] {gaps : Gaps} {origin : Point}
  {filling : Filling Coord nodes.length} {filling' : Filling Coord nodes'.length}

/-- Two lists that have no node in common are laid out one after the other: the first list as it is
on its own, and the second as it is on its own from where the first has ended. -/
theorem Accepted.exists_append (h : Accepted gaps diagram nodes origin network filling)
    (h' : Accepted gaps diagram nodes' filling.finish network' filling')
    (hdisjoint : nodes.Disjoint nodes') :
    ∃ whole both, Accepted gaps diagram (nodes ++ nodes') origin whole both ∧
      both.finish = filling'.finish ∧
      placementsOf (nodes ++ nodes') both.placed.toList =
        placementsOf nodes filling.placed.toList ++
          placementsOf nodes' filling'.placed.toList := by
  obtain ⟨whole, hwhole⟩ := h.resolves.exists_append h'.resolves hdisjoint
  have hembeds := h.resolves.embeds hwhole (get_inFirst nodes nodes')
  have hembeds' := h'.resolves.embeds hwhole (get_inSecond nodes nodes')
  have hunplaced : Columns.Within (inFirst nodes nodes')
      (.replicate _ (none : Option Point)) (.replicate _ none) := fun i => by
    rw [Columns.get_replicate_none, Columns.get_replicate_none]
  -- the first list is placed where nothing has a place, and leaves the second without places
  obtain ⟨first, hfirst, hfinish, hplaces, houtside⟩ :=
    h.fills.embed hembeds hunplaced
  have hfree : Columns.Within (inSecond nodes nodes') (.replicate _ none) first.placed := by
    intro j
    rw [houtside, Columns.get_replicate_none, Columns.get_replicate_none]
    rintro ⟨i, hij⟩
    exact inFirst_ne_inSecond nodes nodes' i j hij
  obtain ⟨both, hsecond, hfinish', hplaces', houtside'⟩ := h'.fills.embed hembeds' hfree
  have hkept (i : Fin nodes.length) :
      both.placed.get (inFirst nodes nodes' i) = filling.placed.get i := by
    rw [houtside', hplaces i]
    rintro ⟨j, hij⟩
    exact inFirst_ne_inSecond nodes nodes' i j hij.symm
  have hcolumn := hfirst.append (hfinish ▸ hsecond.of_start (h.fills.finish_x rfl))
  rw [← finRange_append] at hcolumn
  have hboth : Accepted gaps diagram (nodes ++ nodes') origin whole both := ⟨hwhole, hcolumn⟩
  refine ⟨whole, both, hboth, hfinish', ?_⟩
  choose place hplace _ using hboth.exists_find?
  have hplace (k) : both.placed.get k = some (place k) := (hplace k).place
  rw [placementsOf_eq_map hplace, placementsOf_eq_map fun i => (hkept i).symm.trans (hplace _),
    placementsOf_eq_map fun j => (hplaces' j).symm.trans (hplace _), finRange_append,
    List.map_append, List.map_map, List.map_map]
  refine congrArg₂ (· ++ ·) ?_ ?_
  · exact List.map_congr_left fun i _ => Prod.ext (get_inFirst nodes nodes' i) rfl
  · exact List.map_congr_left fun j _ => Prod.ext (get_inSecond nodes nodes' j) rfl

/-- The layout of a list and of a second one that is appended to it, made of the layouts of the
two. -/
structure TreeLayout.Joined (nodes nodes' : List ι) (layout layout' whole : TreeLayout ι) :
    Prop where
  finish : whole.finish = layout'.finish
  placements : whole.placements = layout.placements ++ layout'.placements
  /-- The nodes of the first list are where they are without the second list. -/
  first : ∀ node ∈ nodes, ∃ position, layout.placements.find? node = some position ∧
    whole.placements.find? node = some position
  /-- The nodes of the second list are where they are without the first list. -/
  second : ∀ node ∈ nodes', ∃ position, layout'.placements.find? node = some position ∧
    whole.placements.find? node = some position

omit [LawfulBEq ι] in
theorem Placements.find?_append (placements placements' : Placements ι) (node : ι) :
    Placements.find? (placements ++ placements') node =
      (placements.find? node).or (placements'.find? node) :=
  List.lookup_append

/-- Two lists that have no node in common are laid out one after the other, the second from where
the first has ended, and none of the layouts changes by it. -/
theorem Accepted.exists_joined [Hashable ι]
    (h : Accepted gaps diagram nodes origin network filling)
    (h' : Accepted gaps diagram nodes' filling.finish network' filling')
    (hdisjoint : nodes.Disjoint nodes') : ∃ whole,
    treeLayout gaps diagram (nodes ++ nodes') origin = .ok whole ∧
      TreeLayout.Joined nodes nodes' ⟨placementsOf nodes filling.placed.toList, filling.finish⟩
        ⟨placementsOf nodes' filling'.placed.toList, filling'.finish⟩ whole := by
  obtain ⟨whole, both, hboth, hfinish, hplacements⟩ := h.exists_append h' hdisjoint
  refine ⟨_, treeLayout_eq_ok_iff.mpr ⟨whole, both, hboth, rfl⟩, hfinish, hplacements, ?_, ?_⟩
  · intro node hnode
    obtain ⟨position, hfind⟩ := h.exists_find?_of_mem hnode
    refine ⟨position, hfind, ?_⟩
    rw [hplacements, Placements.find?_append, hfind, Option.some_or]
  · intro node hnode
    obtain ⟨position, hfind⟩ := h'.exists_find?_of_mem hnode
    refine ⟨position, hfind, ?_⟩
    have hnotMem : node ∉ nodes := fun hmem => hdisjoint hmem hnode
    rw [hplacements, Placements.find?_append, find?_placementsOf_of_notMem hnotMem,
      Option.none_or]
    exact hfind

end

end SchemaLayout
