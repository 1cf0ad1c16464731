import KKAccel.Foundation.DesnanotJacobi
import KKAccel.Foundation.CyclicMinor
import KKAccel.Foundation.Condensation
import KKAccel.Foundation.CellLoop
import KKAccel.Foundation.AtomicRules
import KKAccel.PCProgram
import KKAccel.KKIterations
import KKAccel.Inversion
import KKAccel.SelfCheck
import KKAccel.KKIteration
import KKAccel.KKRun
import KKAccel.AcceleratedProgram
import KKAccel.Foundation.FixedPoint
import KKAccel.IntegerExactness
import KKAccel.DivZero
import KKAccel.KKAvalonSlave
import KKAccel.Isolation
import KKAccel.StateEncoding
import KKAccel.Termination
import KKAccel.Symmetry
import KKAccel.AvalonSlave
import KKAccel.BusService
import KKAccel.Driver
import KKAccel.Protocol
import KKAccel.DriverCodec
import KKAccel.BuiltinInputs
import KKAccel.Foundation.GeneralizedVandermonde
import KKAccel.FIFO2
import KKAccel.WiredSlave
import KKAccel.ServiceTime
import KKAccel.AvalonMaster
import KKAccel.Connected
import KKAccel.Foundation.FloatError
import KKAccel.FloatProgram
import KKAccel.FloatSelfCheck
import KKAccel.Foundation.ExtendedFloat
import KKAccel.ExtendedProgram
import KKAccel.AcceleratedFloat
import KKAccel.Testbench
import KKAccel.Foundation.RequestClient
import KKAccel.BusClient
import KKAccel.BusSchedule
import KKAccel.BusProgram
