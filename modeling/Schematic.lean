import Schematic.Proofs.Fiber
import Schematic.Proofs.FixedPoint
import Schematic.Proofs.Netlist
import Schematic.Proofs.Boxes
import Schematic.Proofs.Nesting
import Schematic.Proofs.Motion
import Schematic.Proofs.Placement
import Schematic.Proofs.Strips
import Schematic.Proofs.Supply
import Schematic.Proofs.Separation
import Schematic.Proofs.Pins
import Schematic.Proofs.Greedy
import Schematic.Proofs.ColumnOrder
import Schematic.Proofs.Scaling
import Schematic.Proofs.Census
import Schematic.Proofs.Attributes
import Schematic.Proofs.Histories
import Schematic.Proofs.NormalForm
import Schematic.Proofs.Labels
import Schematic.Proofs.Exchange
import Schematic.Proofs.Arity
import Schematic.Proofs.Elimination
import Schematic.Proofs.Legible
import Schematic.Proofs.Halves
