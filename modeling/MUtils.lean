import MUtils.Theory.Outcome
import MUtils.Theory.DoublyLinked
import MUtils.Theory.StableOrder
import MUtils.Thread.MemPool
import MUtils.Time.Timeline
import MUtils.Verify.PoolList
import MUtils.Verify.TimelineOrder
import MUtils.Verify.TimelineRuns
import MUtils.Verify.TimelineDelivery
import MUtils.Verify.TimelineExpiry
import MUtils.VM.VM
import MUtils.Verify.VMCalls
import MUtils.Theory.Lockstep
import MUtils.Verify.VMOperands
import MUtils.Verify.VMArguments
import MUtils.Verify.VMDump
import MUtils.UI.UIManager
import MUtils.Verify.UIMessages
import MUtils.Verify.FileMessages
import MUtils.Theory.MixedOrder
import MUtils.Verify.MessageOrder
import MUtils.Theory.Text
import MUtils.Theory.Occurrences
import MUtils.String.StringUtils
import MUtils.Compile.CompileMessages
import MUtils.Verify.StringSplit
import MUtils.Verify.StringTrim
import MUtils.Verify.StringReplace
import MUtils.Verify.LineOffsets
import MUtils.Theory.PercentCoding
import MUtils.Verify.StringBytes
import MUtils.Verify.Diagnostics
import MUtils.Verify.DiagnosticMessages
import MUtils.Theory.Vec
import MUtils.Theory.CallTree
import MUtils.Time.Profiler
import MUtils.Verify.ProfilerSteps
import MUtils.Verify.ProfilerNesting
import MUtils.Verify.ProfilerProgress
import MUtils.Verify.ProfilerRecording
import MUtils.Verify.ProfilerSlots
import MUtils.Verify.ProfilerScopes
import MUtils.Verify.ProfilerTimes
import MUtils.Verify.ProfilerDisplay
import MUtils.Verify.ProfilerRegistration
import MUtils.Verify.ProfilerStack
import MUtils.Verify.VisibleFrames
import MUtils.Verify.PoolRanges
import MUtils.Verify.PoolOwnership
import MUtils.Verify.PoolLifetime
import MUtils.Compile.MetaTags
import MUtils.Verify.MetaTagLines
import MUtils.Shader.GLShader
import MUtils.Verify.ShaderLines
import MUtils.Time.TimeProvider
import MUtils.Verify.TickUpdates
import MUtils.Device.GLBuffer
import MUtils.Verify.BufferRanges
import MUtils.Theory.OrderedMap
import MUtils.Theory.Toml
import MUtils.File.TomlUtils
import MUtils.UI.LayoutManager
import MUtils.Verify.LayoutFile
import MUtils.Theory.Numbering
import MUtils.Theory.Sorted
import MUtils.Geometry.Indexer
import MUtils.Verify.MeshIndexing
import MUtils.Verify.StringGrid
import MUtils.Theory.Words
import MUtils.String.MurmurHash
import MUtils.Verify.HashInverse
import MUtils.Theory.BlockHash
import MUtils.Verify.HashCollisions
import MUtils.Verify.WindowFlags
import MUtils.Theory.Worklist
import MUtils.File.File
import MUtils.Verify.RelativePath
import MUtils.Verify.GatherFiles
import MUtils.Verify.DirectoryTree
import MUtils.Verify.GatherTree
import MUtils.Time.Timer
import MUtils.Verify.TimeRanges
import MUtils.Callback.Scheduler
import MUtils.Verify.SchedulerRuns
import MUtils.Theory.Ring
import MUtils.Algorithm.RingIterator
import MUtils.Verify.RingCursor
import MUtils.Algorithm.ContainerUtils
import MUtils.Verify.ContainerLoops
import MUtils.Theory.Boxes
import MUtils.Theory.Extrema
import MUtils.Math.Math
import MUtils.Math.MathUtils
import MUtils.Verify.RectIntersection
import MUtils.Verify.RectTransforms
import MUtils.Verify.MeshBounds
import MUtils.Verify.Alignment
import MUtils.Verify.ColorPacking
import MUtils.Theory.TriangleStrips
import MUtils.Geometry.StandardShapes
import MUtils.Verify.TorusMesh
import MUtils.Verify.ShapePlacement
import MUtils.Theory.Utf16
import MUtils.Verify.PoolPrimitives
import MUtils.Verify.VisibleTimes
import MUtils.Theory.Trace
import MUtils.Theory.Surface
import MUtils.Theory.CubeSurface
import MUtils.Theory.RingSurface
import MUtils.Theory.IndexedMesh
import MUtils.Theory.Subdivision
import MUtils.Thread.SpinMutex
import MUtils.Time.TickThread
import MUtils.Geometry.RoundedBox
import MUtils.Geometry.Sphere
import MUtils.Geometry.Icosphere
import MUtils.Verify.TickExclusion
import MUtils.Verify.TickProgress
import MUtils.Verify.TickRefinement
import MUtils.Verify.RoundedBox
import MUtils.Verify.RoundedBoxBounds
import MUtils.Verify.SphereMesh
import MUtils.Verify.IcosphereMesh
import MUtils.Verify.IcosphereShape
import MUtils.Verify.IcosphereNormals
import MUtils.Verify.SphereShapes
