import MatrixAccelerator.Model.Fp16
import MatrixAccelerator.Library.DelayLine
import MatrixAccelerator.Library.Accumulation
import MatrixAccelerator.Library.OutputStationaryGrid
import MatrixAccelerator.Model.SystolicCore
import MatrixAccelerator.Model.Top
import MatrixAccelerator.Model.QsysTop
import MatrixAccelerator.Analysis.CoreStreaming
import MatrixAccelerator.Analysis.ControlRefinement
import MatrixAccelerator.Analysis.TopStep
import MatrixAccelerator.Analysis.PipelineInvariant
import MatrixAccelerator.Analysis.DrainCapture
import MatrixAccelerator.Analysis.RunPhases
import MatrixAccelerator.Analysis.StartRuns
import MatrixAccelerator.Analysis.DoneTruthful
import MatrixAccelerator.Analysis.RegisterMap
import MatrixAccelerator.Analysis.Restart
import MatrixAccelerator.Analysis.Progress
import MatrixAccelerator.Library.LatestWrite
import MatrixAccelerator.Analysis.RegisterStore
import MatrixAccelerator.Analysis.DriverRun
import MatrixAccelerator.Analysis.SoftwareReset
import MatrixAccelerator.Analysis.QsysEquivalence
import MatrixAccelerator.Interface.Magnitude
import MatrixAccelerator.Analysis.MultiplierValue
import MatrixAccelerator.Analysis.AdderValue
import MatrixAccelerator.Analysis.Cancellation
import MatrixAccelerator.Interface.ExactProduct
import MatrixAccelerator.Analysis.IntegerExactness
import MatrixAccelerator.Analysis.ErrorBound
import MatrixAccelerator.Analysis.SignSymmetry
import MatrixAccelerator.Interface.AbsoluteValue
import MatrixAccelerator.Analysis.RoundTowardZero
import MatrixAccelerator.Analysis.ExponentRange
import MatrixAccelerator.Analysis.SubnormalProduct
import MatrixAccelerator.Analysis.OverflowLoss
import MatrixAccelerator.Library.Simulation
import MatrixAccelerator.Interface.BusRequest
import MatrixAccelerator.Interface.Feed
import MatrixAccelerator.Interface.Multiplier
import MatrixAccelerator.Analysis.BusDecoding
import MatrixAccelerator.Analysis.MultiplierRefinement
import MatrixAccelerator.Interface.MultiplierRuns
import MatrixAccelerator.Analysis.OverlappingStarts
import MatrixAccelerator.Interface.RunningSums
import MatrixAccelerator.Analysis.QsysRefinement
import MatrixAccelerator.Library.BoundedQueue
import MatrixAccelerator.Model.ScFifo
import MatrixAccelerator.Analysis.FifoRefinement
import MatrixAccelerator.Model.Interconnect
import MatrixAccelerator.Interface.BusLog
import MatrixAccelerator.Library.EventLog
import MatrixAccelerator.Analysis.FabricStages
import MatrixAccelerator.Interface.BackToBack
import MatrixAccelerator.Analysis.BackToBack
import MatrixAccelerator.Analysis.FabricDelivery
import MatrixAccelerator.Interface.DriverContract
import MatrixAccelerator.Analysis.DriverLog
import MatrixAccelerator.Analysis.PlayedDriver
import MatrixAccelerator.Analysis.DriverContracts
import MatrixAccelerator.Analysis.BoardDriver
import MatrixAccelerator.Analysis.OperandLaws
import MatrixAccelerator.Library.PrintedText
import MatrixAccelerator.Model.Printout
import MatrixAccelerator.Interface.PrintoutReader
import MatrixAccelerator.Analysis.Printout
import MatrixAccelerator.Library.RoundRobin
import MatrixAccelerator.Model.CmdXbarMux
import MatrixAccelerator.Analysis.Arbitration
import MatrixAccelerator.Analysis.Monotonicity
import MatrixAccelerator.Analysis.SharedMemory
