import SchemaLayout.Proofs.Schema.Growth
import SchemaLayout.Proofs.Tree.Embedding
import SchemaLayout.Proofs.Tree.Refusal

/-!
# Repeated relationships

A diagram may name a node more than once among those related to another one, and may relate a node
to itself. A placement keeps such entries in its columns and passes over them when it comes to them,
which may be long after they were put there. By then the node that they name has a place: it was
placed for an earlier entry of the same column or, if a node is related to itself, before the column
was opened.

`unseen` leaves out what is passed over in this way. `Fills.simple` says that it is not missed: the
network in which each node is related to each other node once at most is filled in the same way.
-/

namespace SchemaLayout

open Traversal

/-! ## Lists without repetitions -/

section

variable {ι : Type} [BEq ι] [LawfulBEq ι]

/-- The elements of a list that have not been seen before, be it outside or earlier in the list. -/
def unseen (seen : List ι) : List ι → List ι
  | [] => []
  | x :: xs => if x ∈ seen then unseen seen xs else x :: unseen (x :: seen) xs

variable {seen seen' xs ys : List ι} {x y : ι}

theorem unseen_cons_of_mem (h : x ∈ seen) : unseen seen (x :: xs) = unseen seen xs := by
  rw [unseen, if_pos h]

theorem unseen_cons_of_notMem (h : x ∉ seen) :
    unseen seen (x :: xs) = x :: unseen (x :: seen) xs := by
  rw [unseen, if_neg h]

theorem mem_unseen : y ∈ unseen seen xs ↔ y ∈ xs ∧ y ∉ seen := by
  induction xs generalizing seen with
  | nil => simp [unseen]
  | cons x xs ih =>
    by_cases hx : x ∈ seen
    · rw [unseen_cons_of_mem hx, ih, List.mem_cons]
      constructor
      · rintro ⟨hy, hnot⟩
        exact ⟨.inr hy, hnot⟩
      · rintro ⟨rfl | hy, hnot⟩
        · exact absurd hx hnot
        · exact ⟨hy, hnot⟩
    · rw [unseen_cons_of_notMem hx, List.mem_cons, ih, List.mem_cons, List.mem_cons]
      by_cases hy : y = x
      · subst hy
        simp [hx]
      · simp [hy]

/-- What has been seen of the elements that are left out anyway does not matter. -/
theorem filter_unseen {p : ι → Bool} (h : ∀ x, p x = true → (x ∈ seen ↔ x ∈ seen')) :
    (unseen seen xs).filter p = unseen seen' (xs.filter p) := by
  induction xs generalizing seen seen' with
  | nil => rfl
  | cons x xs ih =>
    have hcons (hx : p x = false) (y : ι) (hy : p y = true) : y ∈ x :: seen ↔ y ∈ seen' := by
      have hne : y ≠ x := by
        rintro rfl
        exact Bool.false_ne_true (hx.symm.trans hy)
      rw [List.mem_cons, or_iff_right hne, h y hy]
    cases hx : p x with
    | false =>
      rw [List.filter_cons_of_neg (by simp [hx])]
      by_cases hseen : x ∈ seen
      · rw [unseen_cons_of_mem hseen, ih h]
      · rw [unseen_cons_of_notMem hseen, List.filter_cons_of_neg (by simp [hx]), ih (hcons hx)]
    | true =>
      rw [List.filter_cons_of_pos hx]
      by_cases hseen : x ∈ seen
      · rw [unseen_cons_of_mem hseen, unseen_cons_of_mem ((h x hx).mp hseen), ih h]
      · rw [unseen_cons_of_notMem hseen, unseen_cons_of_notMem (mt (h x hx).mpr hseen),
          List.filter_cons_of_pos hx]
        refine congrArg (x :: ·) (ih fun y hy => ?_)
        rw [List.mem_cons, List.mem_cons, h y hy]

theorem unseen_map {κ : Type} [BEq κ] [LawfulBEq κ] {f : ι → κ} (hf : Function.Injective f) :
    unseen (seen.map f) (xs.map f) = (unseen seen xs).map f := by
  induction xs generalizing seen with
  | nil => rfl
  | cons x xs ih =>
    rw [List.map_cons]
    by_cases hx : x ∈ seen
    · rw [unseen_cons_of_mem hx, unseen_cons_of_mem (List.mem_map_of_mem hx), ih]
    · rw [unseen_cons_of_notMem hx, unseen_cons_of_notMem (by rwa [List.mem_map_of_injective hf]),
        ← List.map_cons, ih, List.map_cons]

/-- An element is not missed where it has been seen before. -/
theorem unseen_append_cons (h : x ∈ seen ∨ x ∈ xs) :
    unseen seen (xs ++ x :: ys) = unseen seen (xs ++ ys) := by
  induction xs generalizing seen with
  | nil => exact unseen_cons_of_mem (h.resolve_right List.not_mem_nil)
  | cons y xs ih =>
    rw [List.cons_append, List.cons_append]
    rw [List.mem_cons, ← or_assoc] at h
    by_cases hy : y ∈ seen
    · have hx : x ∈ seen ∨ x ∈ xs := h.imp_left (Or.rec id fun heq : x = y => heq ▸ hy)
      rw [unseen_cons_of_mem hy, unseen_cons_of_mem hy, ih hx]
    · have hx : x ∈ y :: seen ∨ x ∈ xs := h.imp_left fun h => List.mem_cons.mpr h.symm
      rw [unseen_cons_of_notMem hy, unseen_cons_of_notMem hy, ih hx]

/-- The first element that has a property is the first also where it occurs. -/
theorem isFirst_unseen_iff {P : ι → Prop} (h : ∀ y ∈ seen, ¬ P y) :
    IsFirst P (unseen seen xs) x ↔ IsFirst P xs x := by
  induction xs generalizing seen with
  | nil => rfl
  | cons y xs ih =>
    by_cases hy : y ∈ seen
    · rw [unseen_cons_of_mem hy, ih h, isFirst_cons_iff, and_iff_right (h y hy)]
      exact (or_iff_right fun hP => h y hy hP.1).symm
    · rw [unseen_cons_of_notMem hy, isFirst_cons_iff, isFirst_cons_iff]
      refine or_congr_right (and_congr_right fun hP => ih ?_)
      exact List.forall_mem_cons.mpr ⟨hP, h⟩

theorem loop_eq_append_unseen :
    List.eraseDupsBy.loop (· == ·) xs seen = seen.reverse ++ unseen seen xs := by
  induction xs generalizing seen with
  | nil => rw [List.eraseDupsBy.loop, unseen, List.append_nil]
  | cons x xs ih =>
    rw [List.eraseDupsBy.loop]
    by_cases hx : x ∈ seen
    · have hany : seen.any (x == ·) = true := List.any_eq_true.mpr ⟨x, hx, beq_self_eq_true x⟩
      rw [hany, unseen_cons_of_mem hx]
      exact ih
    · have hany : seen.any (x == ·) = false := by
        refine List.any_eq_false.mpr fun y hy => ?_
        rw [beq_iff_eq]
        rintro rfl
        exact hx hy
      rw [hany, unseen_cons_of_notMem hx]
      exact ih.trans (by rw [List.reverse_cons, List.append_assoc, List.singleton_append])

/-- The first occurrences of all elements but one. -/
theorem eraseDups_filter_ne (xs : List ι) (x : ι) :
    (xs.filter (· != x)).eraseDups = unseen [x] xs := by
  have hloop : (xs.filter (· != x)).eraseDups = unseen [] (xs.filter (· != x)) :=
    loop_eq_append_unseen
  have hfilter : (unseen [x] xs).filter (· != x) = unseen [] (xs.filter (· != x)) :=
    filter_unseen fun y hy => by simpa using hy
  rw [hloop, ← hfilter, List.filter_eq_self]
  intro y hy
  have hne := (mem_unseen.mp hy).2
  simpa using hne

end

/-! ## Networks without repetitions -/

section

variable {α : Type} {n : Nat}

/-- The network in which no node is related to itself, nor to any other node more than once. -/
def Network.simple (network : Network α n) : Network α n :=
  ⟨network.sizes, .ofFn fun i => unseen [i] (network.related.get i)⟩

theorem Network.related_simple (network : Network α n) (i : Fin n) :
    network.simple.related.get i = unseen [i] (network.related.get i) :=
  Vector.getElem_ofFn i.isLt

namespace Columns

variable {network network' : Network α n} {gaps : Gaps α} {start cursor : Point α}
  {placed : Vector (Option (Point α)) n} {nodes seen : List (Fin n)} {filling : Filling α n}

theorem fresh_simple (network : Network α n) (placed : Vector (Option (Point α)) n) (i : Fin n) :
    fresh network.simple placed i = unseen [i] (fresh network placed i) := by
  unfold fresh
  rw [network.related_simple]
  exact filter_unseen fun _ _ => Iff.rfl

variable [Add α] [Max α]

/-- A column is filled in the same way if entries are left out whose nodes have a place or come
earlier in the column, and if the same is done in all columns to its right. -/
theorem Fills.simple (h : Fills network gaps start placed nodes cursor filling)
    (hseen : ∀ i ∈ seen, placed.get i ≠ none) :
    Fills network.simple gaps start placed (unseen seen nodes) cursor filling := by
  induction h generalizing seen with
  | nil => exact .nil
  | @skip start placed i nodes cursor filling hplaced rest ih =>
    by_cases hi : i ∈ seen
    · rw [unseen_cons_of_mem hi]
      exact ih hseen
    · rw [unseen_cons_of_notMem hi]
      exact .skip hplaced (ih (List.forall_mem_cons.mpr ⟨hplaced, hseen⟩))
  | @visit start placed i nodes cursor inner outer hfree right rest ihright ihrest =>
    have hi : i ∉ seen := fun hmem => hseen i hmem hfree
    have hmarked : (mark placed i cursor).get i ≠ none := by
      rw [get_mark_self]
      exact Option.some_ne_none cursor
    rw [unseen_cons_of_notMem hi]
    refine .visit hfree ?_ (ihrest ?_)
    · -- the node itself has a place before its column to the right is opened
      rw [fresh_simple]
      exact ihright (List.forall_mem_singleton.mpr hmarked)
    · -- what had a place before the visit has one after it
      refine List.forall_mem_cons.mpr ⟨?_, fun j hj hnone => hseen j hj ?_⟩
      · exact fun hnone => hmarked (right.get_eq_none hnone)
      · exact (get_eq_none_of_mark (right.get_eq_none hnone)).2

/-- Networks that differ in repetitions only are filled in the same way. -/
theorem Fills.of_simple_eq (h : Fills network gaps start placed nodes cursor filling)
    (hsimple : network.simple = network'.simple) :
    Fills network' gaps start placed nodes cursor filling := by
  have hfills := fills_fill network' gaps start placed nodes cursor
  have hunseen : ∀ i ∈ [], placed.get i ≠ none := fun i hi => absurd hi List.not_mem_nil
  have hsame := (h.simple hunseen).eq_fill
  rw [hsimple, ← (hfills.simple hunseen).eq_fill] at hsame
  rw [hsame]
  exact hfills

end Columns

end

/-! ## Diagrams with repetitions -/

section

variable {δ δ' ι : Type} [Diagram δ ι] [Diagram δ' ι] [BEq ι] [LawfulBEq ι] {diagram : δ}
  {diagram' : δ'} {nodes : List ι} {node : ι} {e : LayoutError ι}

/-- The nodes related to a node: the first occurrences of all that the diagram names but the node
itself. -/
def Diagram.others (diagram : δ) (node : ι) : Except String (List ι) := do
  let exported ← Diagram.exported diagram node
  let imported ← Diagram.imported diagram node
  return ((exported ++ imported).filter (· != node)).eraseDups

/-- Both diagrams can tell what is related to a node, and apart from repetitions tell the same. -/
def Diagram.RelateAlike (diagram : δ) (diagram' : δ') (node : ι) : Prop :=
  ∃ others, Diagram.others diagram node = .ok others ∧ Diagram.others diagram' node = .ok others

omit [LawfulBEq ι] in
theorem Diagram.RelateAlike.symm (h : Diagram.RelateAlike diagram diagram' node) :
    Diagram.RelateAlike diagram' diagram node := by
  obtain ⟨others, hothers, hothers'⟩ := h
  exact ⟨others, hothers', hothers⟩

theorem Diagram.others_eq_ok_iff {others : List ι} :
    Diagram.others diagram node = .ok others ↔ ∃ exported imported,
      Diagram.exported diagram node = .ok exported ∧ Diagram.imported diagram node = .ok imported ∧
        unseen [node] (exported ++ imported) = others := by
  unfold Diagram.others
  simp only [bind_eq_ok_iff, eraseDups_filter_ne, exists_and_left]
  refine exists_congr fun exported => and_congr_right fun _ => ?_
  refine exists_congr fun imported => and_congr_right fun _ => ?_
  show Except.ok _ = .ok others ↔ _
  rw [Except.ok.injEq]

theorem Diagram.RelateAlike.exists_related (h : Diagram.RelateAlike diagram diagram' node) :
    ∃ exported imported exported' imported',
      Diagram.exported diagram node = .ok exported ∧ Diagram.imported diagram node = .ok imported ∧
        Diagram.exported diagram' node = .ok exported' ∧
        Diagram.imported diagram' node = .ok imported' ∧
        unseen [node] (exported ++ imported) = unseen [node] (exported' ++ imported') := by
  obtain ⟨others, hothers, hothers'⟩ := h
  obtain ⟨exported, imported, hexported, himported, hunseen⟩ :=
    Diagram.others_eq_ok_iff.mp hothers
  obtain ⟨exported', imported', hexported', himported', hunseen'⟩ :=
    Diagram.others_eq_ok_iff.mp hothers'
  exact ⟨exported, imported, exported', imported', hexported, himported, hexported', himported',
    hunseen.trans hunseen'.symm⟩

/-! ## The same errors -/

/-- The relationships of a listed node lead out of the list at the same place. -/
theorem Network.Objects.of_relateAlike (h : Network.Objects diagram nodes node e)
    (hnode : node ∈ nodes) (halike : Diagram.RelateAlike diagram diagram' node) :
    Network.Objects diagram' nodes node e := by
  obtain ⟨exported, imported, exported', imported', hexported, himported, hexported', himported',
    hunseen⟩ := halike.exists_related
  cases h with
  | exported htext => cases hexported.symm.trans htext
  | imported _ htext => cases himported.symm.trans htext
  | foreign hex him hfirst =>
    cases hexported.symm.trans hex
    cases himported.symm.trans him
    have hself : ∀ other ∈ [node], ¬ other ∉ nodes :=
      List.forall_mem_singleton.mpr (not_not_intro hnode)
    rw [← isFirst_unseen_iff hself, hunseen, isFirst_unseen_iff hself] at hfirst
    exact .foreign hexported' himported' hfirst

/-- Nodes are refused for the same reason. -/
theorem Network.Refuses.of_relateAlike (h : Network.Refuses diagram nodes e)
    (halike : ∀ node ∈ nodes, Diagram.RelateAlike diagram diagram' node)
    (hsize : ∀ node ∈ nodes, Diagram.size? diagram node = Diagram.size? diagram' node) :
    Network.Refuses diagram' nodes e := by
  have hobjects (node : ι) (hnode : node ∈ nodes) (e : LayoutError ι) :
      Network.Objects diagram nodes node e ↔ Network.Objects diagram' nodes node e :=
    ⟨fun h => h.of_relateAlike hnode (halike node hnode),
      fun h => h.of_relateAlike hnode (halike node hnode).symm⟩
  cases h with
  | duplicate hnodes hnodup hmem => exact .duplicate hnodes hnodup hmem
  | related hnodup hfirst h =>
    refine .related hnodup (hfirst.congr fun node hnode => ?_) ((hobjects _ hfirst.mem _).mp h)
    exact exists_congr (hobjects node hnode)
  | missing hnodup hrelated hfirst =>
    refine .missing hnodup (fun node hnode e => ?_) (hfirst.congr fun node hnode => ?_)
    · rw [← hobjects node hnode]
      exact hrelated node hnode e
    · rw [hsize node hnode]

/-! ## The same layout -/

/-- Networks of alike nodes differ in repetitions only. -/
theorem Network.Resolves.simple_eq {network network' : Network Coord nodes.length}
    (h : network.Resolves diagram (listed nodes)) (h' : network'.Resolves diagram' (listed nodes))
    (halike : ∀ node ∈ nodes, Diagram.RelateAlike diagram diagram' node)
    (hsize : ∀ node ∈ nodes, Diagram.size? diagram node = Diagram.size? diagram' node) :
    network.simple = network'.simple := by
  have hmem (i : Fin nodes.length) : (listed nodes).get i ∈ nodes := List.get_mem nodes i
  have hsizes (i : Fin nodes.length) : network.sizes.get i = network'.sizes.get i := by
    rw [← Option.some.injEq, ← h.sizes, ← h'.sizes]
    exact hsize _ (hmem i)
  have hrelated (i : Fin nodes.length) :
      unseen [i] (network.related.get i) = unseen [i] (network'.related.get i) := by
    obtain ⟨exported, imported, exported', imported', hexported, himported, hexported',
      himported', hunseen⟩ := (halike _ (hmem i)).exists_related
    obtain ⟨_, _, hex, him, hmap⟩ := h.related i
    obtain ⟨_, _, hex', him', hmap'⟩ := h'.related i
    cases hexported.symm.trans hex
    cases himported.symm.trans him
    cases hexported'.symm.trans hex'
    cases himported'.symm.trans him'
    -- both lists of numbers stand for the same nodes
    refine List.map_injective_iff.mpr h.injective ?_
    rw [← unseen_map h.injective, ← unseen_map h.injective, hmap, hmap']
    exact hunseen
  unfold simple
  rw [funext hrelated, Vector.ext fun i hi => hsizes ⟨i, hi⟩]

/-- Nodes that are resolved in one diagram are resolved in the other one. -/
theorem Network.Resolves.exists_of_relateAlike {network : Network Coord nodes.length}
    (h : network.Resolves diagram (listed nodes))
    (halike : ∀ node ∈ nodes, Diagram.RelateAlike diagram diagram' node)
    (hsize : ∀ node ∈ nodes, Diagram.size? diagram node = Diagram.size? diagram' node) :
    ∃ network' : Network Coord nodes.length, network'.Resolves diagram' (listed nodes) := by
  refine exists_resolves (injective_get_listed.mp h.injective) (fun node hnode => ?_)
    fun node hnode => hsize node hnode ▸ h.exists_size hnode
  obtain ⟨exported, imported, exported', imported', hexported, himported, hexported', himported',
    hunseen⟩ := (halike node hnode).exists_related
  obtain ⟨_, _, hex, him, hlisted⟩ := h.exists_related hnode
  cases hexported.symm.trans hex
  cases himported.symm.trans him
  refine ⟨exported', imported', hexported', himported', fun other hother => ?_⟩
  by_cases hself : other = node
  · rwa [hself]
  · have hmem : other ∈ unseen [node] (exported' ++ imported') :=
      mem_unseen.mpr ⟨hother, fun hmem => hself (List.mem_singleton.mp hmem)⟩
    rw [← hunseen] at hmem
    exact hlisted other (mem_unseen.mp hmem).1

variable [Hashable ι] {gaps : Gaps} {origin : Point}

/-- Diagrams that relate the listed nodes alike and agree on their sizes have the same layout, or
refuse it for the same reason. -/
theorem treeLayout_eq_of_relateAlike
    (halike : ∀ node ∈ nodes, Diagram.RelateAlike diagram diagram' node)
    (hsize : ∀ node ∈ nodes, Diagram.size? diagram node = Diagram.size? diagram' node) :
    treeLayout gaps diagram nodes origin = treeLayout gaps diagram' nodes origin := by
  symm
  cases hlayout : treeLayout gaps diagram nodes origin with
  | error e =>
    rw [treeLayout_eq_error_iff] at hlayout ⊢
    exact hlayout.of_relateAlike halike hsize
  | ok layout =>
    rw [treeLayout_eq_ok_iff] at hlayout ⊢
    obtain ⟨network, filling, ⟨hresolves, hfills⟩, hlayout⟩ := hlayout
    obtain ⟨network', hresolves'⟩ := hresolves.exists_of_relateAlike halike hsize
    have hsimple := hresolves.simple_eq hresolves' halike hsize
    exact ⟨network', filling, ⟨hresolves', hfills.of_simple_eq hsimple⟩, hlayout⟩

end

/-! ## Schemas with repetitions -/

namespace Schema

variable {schema schema' : Schema} {primary foreign : TableId}

/-- A relationship of a table with itself, or one that there is already, adds nothing but
repetitions. -/
theorem WellFormed.relateAlike_of_addRelationship? (h : schema.WellFormed)
    (hadd : schema.addRelationship? primary foreign = some schema')
    (hrepeats : primary = foreign ∨ foreign ∈ schema.exported primary) (id : TableId) :
    Diagram.RelateAlike schema' schema id := by
  obtain ⟨⟨hprimary, hforeign⟩, rfl⟩ := addRelationship?_eq_some_iff.mp hadd
  refine ⟨_, Diagram.others_eq_ok_iff.mpr ⟨_, _, rfl, rfl, rfl⟩,
    Diagram.others_eq_ok_iff.mpr ⟨_, _, rfl, rfl, ?_⟩⟩
  rw [exported_addRelationship hprimary, imported_addRelationship hforeign]
  have hfirst (rest : List TableId) :
      unseen [id] ((schema.exported id ++ if primary = id then [foreign] else []) ++ rest) =
        unseen [id] (schema.exported id ++ rest) := by
    split <;> rename_i hid
    · subst hid
      rw [List.append_assoc, List.singleton_append]
      exact unseen_append_cons (hrepeats.imp_left fun hself => List.mem_singleton.mpr hself.symm)
    · rw [List.append_nil]
  have hlast : unseen [id] ((schema.exported id ++ schema.imported id) ++
        if foreign = id then [primary] else []) =
      unseen [id] (schema.exported id ++ schema.imported id) := by
    split <;> rename_i hid
    · subst hid
      have hseen : primary ∈ [foreign] ∨
          primary ∈ schema.exported foreign ++ schema.imported foreign :=
        hrepeats.imp List.mem_singleton.mpr fun hmem =>
          List.mem_append_right _ (h.mem_exported_iff.mp hmem)
      rw [unseen_append_cons hseen, List.append_nil]
    · rw [List.append_nil]
  rw [hfirst, ← List.append_assoc, hlast]

theorem size?_addRelationship? (hadd : schema.addRelationship? primary foreign = some schema')
    (id : TableId) : Diagram.size? schema' id = Diagram.size? schema id := by
  obtain ⟨-, rfl⟩ := addRelationship?_eq_some_iff.mp hadd
  rw [size?_eq, size?_eq, table?_addRelationship]

end Schema

/-! ## Repetitions do not matter -/

/-- Two diagrams that name the same nodes as related to each listed node, in the same order of their
first occurrences and leaving aside the node itself, have the same layout for all gaps and origins,
or refuse it for the same reason. So a table that is related to itself, or once more to a table to
which it is related already, makes no difference to a schema. -/
theorem treeLayout_ignores_repeats :
    (∀ {δ δ' ι : Type} [Diagram δ ι] [Diagram δ' ι] [BEq ι] [LawfulBEq ι] [Hashable ι]
        {diagram : δ} {diagram' : δ'} {nodes : List ι},
      (∀ node ∈ nodes, Diagram.RelateAlike diagram diagram' node) →
      (∀ node ∈ nodes, Diagram.size? diagram node = Diagram.size? diagram' node) →
      ∀ (gaps : Gaps) (origin : Point),
        treeLayout gaps diagram nodes origin = treeLayout gaps diagram' nodes origin) ∧
    ∀ {schema schema' : Schema} {primary foreign : TableId}, schema.Reachable →
      schema.addRelationship? primary foreign = some schema' →
      primary = foreign ∨ foreign ∈ schema.exported primary →
      ∀ (gaps : Gaps) (ids : List TableId) (origin : Point),
        treeLayout gaps schema' ids origin = treeLayout gaps schema ids origin := by
  constructor
  · intro δ δ' ι _ _ _ _ _ diagram diagram' nodes halike hsize gaps origin
    exact treeLayout_eq_of_relateAlike halike hsize
  · intro schema schema' primary foreign h hadd hrepeats gaps ids origin
    exact treeLayout_eq_of_relateAlike
      (fun id _ => h.wellFormed.relateAlike_of_addRelationship? hadd hrepeats id)
      fun id _ => Schema.size?_addRelationship? hadd id

/-- The ring with its first relationship doubled is laid out as the ring is, be it compared by what
is related to its tables or by how it has come about; and so is the ring with a table more that is
related to itself. -/
theorem treeLayout_ignores_repeats_ring : ∃ doubled looped,
    Schema.ring.addRelationship? ⟨0⟩ ⟨1⟩ = some doubled ∧
      Schema.ring.addRelationship? ⟨2⟩ ⟨2⟩ = some looped ∧
      treeLayout .standard (FragileSchema.ofSchema Schema.ring) [⟨0⟩, ⟨1⟩, ⟨2⟩] .zero =
        treeLayout .standard doubled [⟨0⟩, ⟨1⟩, ⟨2⟩] .zero ∧
      treeLayout .standard doubled [⟨0⟩, ⟨1⟩, ⟨2⟩] .zero =
        treeLayout .standard Schema.ring [⟨0⟩, ⟨1⟩, ⟨2⟩] .zero ∧
      treeLayout .standard looped [⟨0⟩, ⟨1⟩, ⟨2⟩] .zero =
        treeLayout .standard Schema.ring [⟨0⟩, ⟨1⟩, ⟨2⟩] .zero := by
  have hdoubled : Schema.ring.addRelationship? ⟨0⟩ ⟨1⟩ =
      some (Schema.ring.addRelationship ⟨0⟩ ⟨1⟩) :=
    Schema.addRelationship?_eq_some_iff.mpr ⟨by decide, rfl⟩
  have hlooped : Schema.ring.addRelationship? ⟨2⟩ ⟨2⟩ =
      some (Schema.ring.addRelationship ⟨2⟩ ⟨2⟩) :=
    Schema.addRelationship?_eq_some_iff.mpr ⟨by decide, rfl⟩
  have halike : ∀ id ∈ [⟨0⟩, ⟨1⟩, ⟨2⟩], Diagram.RelateAlike (FragileSchema.ofSchema Schema.ring)
      (Schema.ring.addRelationship ⟨0⟩ ⟨1⟩) id := by
    intro id hid
    simp only [List.mem_cons, List.not_mem_nil, or_false] at hid
    rcases hid with rfl | rfl | rfl <;> exact ⟨_, rfl, rfl⟩
  refine ⟨_, _, hdoubled, hlooped, ?_, ?_, ?_⟩
  · exact treeLayout_ignores_repeats.1 halike (by decide) .standard .zero
  · exact treeLayout_ignores_repeats.2 Schema.reachable_ring hdoubled (.inr (by decide)) .standard
      _ .zero
  · exact treeLayout_ignores_repeats.2 Schema.reachable_ring hlooped (.inl rfl) .standard _ .zero

end SchemaLayout
