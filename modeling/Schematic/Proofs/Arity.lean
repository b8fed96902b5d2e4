/-
The shapes of the grid against the kinds of nodes that they are made for. A
shape suits a kind if it has a pin for each input, an output pin if the node
drives one, and all of them apart and on the footprint.

A gate's number of inputs is counted in coordinates. One that the plane has no
coordinate for is taken modulo 2^32 without a fault, and the shape made then is
that of some other number of inputs; so the grid keeps to the kind exactly for
numbers below 2^31 (`suits_iff`).
-/
import Schematic.Proofs.Pins

namespace Schematic

/-- What a node of the given kind can expect of its shape. -/
structure Shape.Suits (shape : Shape) (kind : NodeKind) : Prop where
  length_inputs : shape.inputs.length = kind.arity
  isSome_output : shape.output.isSome = kind.hasOutput
  nodup_pins : shape.pins.Nodup
  width_nonneg : 0 ≤ shape.footprint.width
  height_nonneg : 0 ≤ shape.footprint.height
  /-- Every pin is on the footprint, its edges included. -/
  holds : ∀ p ∈ shape.pins, Box.Holds ⟨.origin, shape.footprint⟩ p

namespace Catalog

variable {s : Int}

theorem length_inputs_gate {n : Int} {shape : Shape} (h : gate s n = .ok shape) :
    shape.inputs.length = n.toNat := by
  simp only [gate, bind_eq_ok_iff] at h
  obtain ⟨width, -, middle, -, height, -, ⟨⟩⟩ := h
  rw [List.length_map, List.length_range]

theorem length_inputs_grid {kind : NodeKind} {shape : Shape} (h : (grid s).shape kind = .ok shape) :
    shape.inputs.length = (Coord.ofCount kind.arity).toNat := by
  cases kind with
  | input | output =>
    cases h
    rfl
  | not =>
    simp only [grid, inverter, bind_eq_ok_iff] at h
    obtain ⟨width, -, ⟨⟩⟩ := h
    rfl
  | and n | or n => exact length_inputs_gate h

theorem suits_gateShape (hs : 0 < s) {kind : NodeKind} (hgate : kind.isGate = true) :
    (gateShape s kind).Suits kind where
  length_inputs := length_inputs_gateShape s kind
  isSome_output := by
    cases kind with
    | input | output => cases hgate
    | not | and | or => rfl
  nodup_pins := nodup_pins_gateShape hs kind
  width_nonneg := mul_nonneg (Int.natCast_nonneg _) hs.le
  height_nonneg := mul_nonneg (Int.natCast_nonneg _) hs.le
  holds p hp := by
    have := holds_of_mem_gateShape hs hp .origin
    rwa [Point.origin_add] at this

theorem suits_terminal (hs : 0 < s) {kind : NodeKind} {inputs : List Point} {output : Option Point}
    (hinputs : inputs.length = kind.arity) (houtput : output.isSome = kind.hasOutput)
    (hpins : inputs ++ output.toList = [.origin]) : (terminal s inputs output).Suits kind where
  length_inputs := hinputs
  isSome_output := houtput
  nodup_pins := by
    rw [Shape.pins, terminal, hpins]
    exact List.nodup_singleton _
  width_nonneg := hs.le
  height_nonneg := hs.le
  holds p hp := by
    rw [Shape.pins, terminal, hpins] at hp
    obtain rfl := List.mem_singleton.1 hp
    refine ⟨le_rfl, ?_, le_rfl, ?_⟩ <;> simp only [terminal, Box.right, Box.bottom, Point.x_origin, Point.y_origin] <;>
      omega

/-- **A shape of the grid suits its kind exactly if the number of inputs is one
of a coordinate.** -/
theorem suits_iff (hs : 0 < s) {kind : NodeKind} {shape : Shape} (h : (grid s).shape kind = .ok shape) :
    shape.Suits kind ↔ kind.arity < 2 ^ 31 := by
  constructor
  · intro hsuits
    have hcount := hsuits.length_inputs
    rw [length_inputs_grid h] at hcount
    have hrange := (Coord.inRange_ofCount kind.arity).2
    omega
  · intro harity
    cases kind with
    | input | output =>
      cases h
      exact suits_terminal hs rfl rfl rfl
    | not | and n | or n =>
      rw [shape_grid_eq rfl harity h]
      exact suits_gateShape hs rfl

/-- A conjunction of three inputs on the usual grid. -/
theorem suits_iff_of_three :
    (grid 20).shape (.and 3) = .ok ⟨[⟨0, 0⟩, ⟨0, 20⟩, ⟨0, 40⟩], some ⟨60, 20⟩, ⟨60, 60⟩⟩ ∧
      (Shape.Suits ⟨[⟨0, 0⟩, ⟨0, 20⟩, ⟨0, 40⟩], some ⟨60, 20⟩, ⟨60, 60⟩⟩ (.and 3) ↔ 3 < 2 ^ 31) := by
  have h : (grid 20).shape (.and 3) = .ok ⟨[⟨0, 0⟩, ⟨0, 20⟩, ⟨0, 40⟩], some ⟨60, 20⟩, ⟨60, 60⟩⟩ := by rfl
  exact ⟨h, suits_iff (by decide) h⟩

/-- **A conjunction of 2^31 inputs gets a shape that does not suit it**: one with
no input pins at all, and of negative height. -/
theorem not_suits_of_wrapped :
    ∃ shape, (grid 1).shape (.and 2147483648) = .ok shape ∧ ¬ shape.Suits (.and 2147483648) := by
  refine ⟨⟨[], some ⟨3, -1073741824⟩, ⟨3, -2147483648⟩⟩, by rfl, fun h => ?_⟩
  exact absurd h.height_nonneg (by decide)

end Catalog

end Schematic
