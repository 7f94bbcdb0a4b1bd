import Rbsc.Lib.Lumping
import Rbsc.Lib.Loop
import Rbsc.Lib.RefineLoop
import Rbsc.Lib.Arrays
import Rbsc.Lib.ComparisonSort
import Rbsc.Lib.Rank
import Rbsc.Lib.StableSort
import Rbsc.Lib.Runs
import Rbsc.Lib.Labelling
import Rbsc.Lib.Interleave
import Rbsc.Lib.Splitter
import Rbsc.Lib.Fields
import Rbsc.Hash
import Rbsc.Graph
import Rbsc.Rsc.Model
import Rbsc.Rsc.Round
import Rbsc.Rsc.Exact
import Rbsc.Rsc.Bounds
import Rbsc.Rsc.Ties
import Rbsc.Gpu.Model
import Rbsc.Gpu.Pass
import Rbsc.Gpu.Once
import Rbsc.Gpu.Refine
import Rbsc.Gpu.Window
import Rbsc.Host.Model
import Rbsc.Host.Window
import Rbsc.Host.Labels
import Rbsc.Host.Merge
import Rbsc.Host.Quotient
import Rbsc.Host.InPlace
import Rbsc.Host.Round
import Rbsc.Host.Groups
import Rbsc.Host.Empty
import Rbsc.Host.Run
import Rbsc.Host.Counts
import Rbsc.Host.Truncate
import Rbsc.Host.Exact
import Rbsc.Host.OutDegree
import Rbsc.Host.Lumping
import Rbsc.Host.GiveUp
import Rbsc.Host.Wrap
import Rbsc.Host.Batch
import Rbsc.Host.OnePass
import Rbsc.Host.Rename
import Rbsc.Compare.Classes
import Rbsc.Compare.Count
import Rbsc.Compare.Rename
import Rbsc.Compare.OutDegree
import Rbsc.Workers.Model
import Rbsc.Workers.Alone
import Rbsc.Workers.Race
import Rbsc.Workers.Parallel
import Rbsc.Workers.Handout
import Rbsc.Workers.Progress
import Rbsc.Workers.Labels
import Rbsc.Workers.Dangling
import Rbsc.Workers.Schedule
import Rbsc.Workers.Wrap
import Rbsc.Workers.Weights
import Rbsc.PartRef.Model
import Rbsc.PartRef.Heap
import Rbsc.PartRef.Partition
import Rbsc.PartRef.Touched
import Rbsc.PartRef.Initial
import Rbsc.PartRef.Adjacent
import Rbsc.PartRef.Markov
import Rbsc.PartRef.Exact
import Rbsc.Export.Model
import Rbsc.PartRef.Read
import Rbsc.PartRef.Reader
import Rbsc.PartRef.Ends
import Rbsc.PartRef.Coarsest
import Rbsc.PartRef.Give
import Rbsc.PartRef.Writer
import Rbsc.PartRef.Write
import Rbsc.PartRef.Quotient
import Rbsc.Compare.Exports
import Rbsc.Compare.PartRef
import Rbsc.Compare.Adapter
import Rbsc.Stdin.Bytes
import Rbsc.Stdin.ReadGraph
import Rbsc.Stdin.GraphFile
import Rbsc.Export.Text
import Rbsc.BvGraph.Random
import Rbsc.BvGraph.RoundTrip
import Rbsc.BvGraph.TaskQueue
import Rbsc.BvGraph.Properties
import Rbsc.BvGraph.Parallel
import Rbsc.BvGraph.Files
import Rbsc.BvGraph.Recompress
import Rbsc.BvGraph.Dcf
import Rbsc.BvGraph.Endianness
import Rbsc.BvGraph.Export
