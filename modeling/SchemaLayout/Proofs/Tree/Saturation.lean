import SchemaLayout.Proofs.Tree.Alongside
import SchemaLayout.Proofs.Tree.Blocks

/-!
# Saturation

A coordinate that has been stopped at the edge of the plane goes into further sums and maxima. Where
no extent and no gap is negative this does no harm: a placement is the one that is found over
unbounded integers, and each of its coordinates has been cut to the edge of the plane once. It
places the same nodes in the same order and in the same columns, and what fits on the plane is not
touched.
-/

namespace SchemaLayout

variable {n : Nat}

/-! ## Unbounded coordinates -/

/-- A point with its coordinates as integers. -/
def Point.exact (p : Point) : Point Int := ⟨p.x.toInt, p.y.toInt⟩

/-- The point to which an unbounded one is cut at the edge of the plane. -/
def Point.cut (p : Point Int) : Point Int := ⟨min 2147483647 p.x, min 2147483647 p.y⟩

/-- A size with its extents as integers. -/
def Size.exact (size : Size) : Size Int := ⟨size.width.toInt, size.height.toInt⟩

/-- Gaps as integers. -/
def Gaps.exact (gaps : Gaps) : Gaps Int := ⟨gaps.horizontal.toInt, gaps.vertical.toInt⟩

/-- A network with its sizes in integers. -/
def Network.exact (network : Network Coord n) : Network Int n :=
  ⟨network.sizes.map Size.exact, network.related⟩

/-- Positions with their coordinates as integers. -/
def Columns.exactPlaces (placed : Vector (Option Point) n) : Vector (Option (Point Int)) n :=
  placed.map (Option.map Point.exact)

theorem Network.exact_sizes_get (network : Network Coord n) (i : Fin n) :
    network.exact.sizes.get i = (network.sizes.get i).exact :=
  Vector.getElem_map ..

theorem Columns.get_exactPlaces (placed : Vector (Option Point) n) (i : Fin n) :
    (exactPlaces placed).get i = (placed.get i).map Point.exact :=
  Vector.getElem_map ..

/-! ## The comparison -/

namespace Comparison

/-- A coordinate is an integer that has been cut at the edge of the plane. -/
def cut : Comparison Coord Int where
  x a c := a.toInt = min 2147483647 c
  y a c := a.toInt = min 2147483647 c

theorem ofPoint_cut_iff {p : Point} {c : Point Int} : cut.OfPoint p c ↔ p.exact = c.cut := by
  rw [Point.ext_iff]
  exact ⟨fun h => ⟨h.x, h.y⟩, fun h => ⟨h.1, h.2⟩⟩

/-- Coordinates of the plane are not cut. -/
theorem ofPoint_cut_exact (p : Point) : cut.OfPoint p p.exact :=
  ⟨(min_eq_right p.x.le_hi).symm, (min_eq_right p.y.le_hi).symm⟩

theorem ofPlaced_cut_exactPlaces (placed : Vector (Option Point) n) :
    cut.OfPlaced placed (Columns.exactPlaces placed) := by
  intro i
  rw [Columns.get_exactPlaces]
  cases placed.get i with
  | none => exact .none
  | some p => exact .some (ofPoint_cut_exact p)

theorem rel_cut_iff {p? : Option Point} {c? : Option (Point Int)} :
    Option.Rel cut.OfPoint p? c? ↔ p?.map Point.exact = c?.map Point.cut := by
  cases p? <;> cases c? <;> simp [ofPoint_cut_iff]

/-- Cutting may be put off: sums with what is not negative, and maxima, can be cut afterwards. -/
theorem kept_cut {network : Network Coord n} {gaps : Gaps} (hn : network.Nonneg gaps) :
    cut.Kept network gaps network.exact gaps.exact := by
  have hsize (i : Fin n) := network.exact_sizes_get i
  refine ⟨rfl, fun i a c h => ?_, fun i a c h => ?_, fun {a c b d} h h' => ?_⟩
  · have hwidth := hn.width i
    have hgap := hn.horizontal
    have hlow := a.lo_le
    simp only [cut, hsize, Size.exact, Gaps.exact, Coord.toInt_add] at h ⊢
    omega
  · have hheight := hn.height i
    have hgap := hn.vertical
    have hlow := a.lo_le
    simp only [cut, hsize, Size.exact, Gaps.exact, Coord.toInt_add] at h ⊢
    omega
  · simp only [cut, Coord.toInt_max] at h h' ⊢
    omega

end Comparison

namespace Columns

/-- Saturation is a final cut. The positions and the free slot that a placement finds are those that
it finds over unbounded integers, cut at the edge of the plane; and whenever the one has made some
assignments, the other makes assignments of the same nodes in the same order, after which the same
nodes wait in the same columns. -/
theorem place_eq_cut_place {network : Network Coord n} {gaps : Gaps} (hn : network.Nonneg gaps)
    (placed : Vector (Option Point) n) (nodes : List (Fin n)) (start : Point) :
    let bounded := place network gaps placed nodes start
    let unbounded := place network.exact gaps.exact (exactPlaces placed) nodes start.exact
    (∀ i, (bounded.placed.get i).map Point.exact = (unbounded.placed.get i).map Point.cut) ∧
      bounded.finish.exact = unbounded.finish.cut ∧
      ∀ s log, Passes network gaps ⟨placed, [openColumn nodes start], start⟩ s log →
        ∃ t log', Passes network.exact gaps.exact
            ⟨exactPlaces placed, [openColumn nodes start.exact], start.exact⟩ t log' ∧
          log.map Prod.fst = log'.map Prod.fst ∧ s.waiting = t.waiting := by
  have hkept := Comparison.kept_cut hn
  have hplaced := Comparison.ofPlaced_cut_exactPlaces placed
  have hstart := Comparison.ofPoint_cut_exact start
  have hplace := hkept.place hplaced nodes hstart
  refine ⟨fun i => Comparison.rel_cut_iff.mp (hplace.placed i),
    Comparison.ofPoint_cut_iff.mp hplace.finish, ?_⟩
  intro s log hpasses
  obtain ⟨t, log', hpasses', ht, hlog⟩ :=
    hkept.exists_passes (hplaced.ofColumns nodes hstart) hpasses
  exact ⟨t, log', hpasses', Comparison.map_eq_map_of_forall₂ And.left hlog, ht.waiting_eq⟩

/-! ## An example -/

/-- Two nodes that are related to each other. -/
def pair : Network Coord 2 := ⟨.replicate 2 ⟨100, 50⟩, #v[[1], [0]]⟩

/-- A point near the lower right corner of the plane. -/
def nearCorner : Point := ⟨.clamp 2147483597, .clamp 2147483627⟩

/-- Over unbounded integers the second node goes beyond the right edge of the plane, and the free
slot beyond the lower edge. -/
theorem place_pair_exact :
    place pair.exact Gaps.standard.exact (exactPlaces (.replicate 2 none)) [0, 1]
        nearCorner.exact =
      ⟨#v[some ⟨2147483597, 2147483627⟩, some ⟨2147483757, 2147483627⟩], [],
        ⟨2147483597, 2147483687⟩⟩ := by
  have hnetwork : pair.exact = ⟨.replicate 2 ⟨100, 50⟩, #v[[1], [0]]⟩ :=
    congrArg (Network.mk · _) Vector.map_replicate
  have hplaced : exactPlaces (.replicate 2 none) = .replicate 2 none := Vector.map_replicate
  rw [hnetwork, hplaced]
  refine place_of_fills (?_ : Fills _ _ _ _ _ _ ⟨_, _⟩)
  refine .visit rfl (.visit rfl .nil .nil) (.skip ?_ .nil)
  decide

/-- Near the corner the second node and the free slot are stopped at the edge that they would go
beyond. -/
theorem place_eq_cut_place_nearCorner :
    pair.Nonneg .standard ∧ ∃ bounded,
      place pair .standard (.replicate 2 none) [0, 1] nearCorner = bounded ∧
        (bounded.placed.get 0).map Point.exact = some ⟨2147483597, 2147483627⟩ ∧
        (bounded.placed.get 1).map Point.exact = some ⟨2147483647, 2147483627⟩ ∧
        bounded.finish.exact = ⟨2147483597, 2147483647⟩ := by
  have hn : pair.Nonneg .standard := ⟨by decide, by decide, by decide, by decide⟩
  obtain ⟨hplaced, hfinish, -⟩ := place_eq_cut_place hn (.replicate 2 none) [0, 1] nearCorner
  rw [place_pair_exact] at hplaced hfinish
  exact ⟨hn, _, rfl, hplaced 0, hplaced 1, hfinish⟩

end Columns

end SchemaLayout
