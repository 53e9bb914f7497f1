import Ladybirds.OptionTraversal
import Ladybirds.Range
import Ladybirds.SpaceDivision
import Ladybirds.MetaKernelSeq
import Ladybirds.Dataflow
import Ladybirds.OccupationChart
import Ladybirds.Schedule
import Ladybirds.Graph
import Ladybirds.BankAssignment
import Ladybirds.CacheIndexOpt
import Ladybirds.ItemSet
import Ladybirds.BufferAllocation
import Ladybirds.KernelCall
import Ladybirds.BufferPreallocation
import Ladybirds.BufferIndices
import Ladybirds.TopoSort
import Ladybirds.Transient
import Ladybirds.StronglyConnected
import Ladybirds.Bursts
import Ladybirds.EdgeRegister
import Ladybirds.InsertionSchedule
import Ladybirds.ArrayMerger
import Ladybirds.MergePorts
import Ladybirds.PresDeque
import Ladybirds.Diophant
import Ladybirds.GreedyBursts
import Ladybirds.DistanceTable
import Ladybirds.DepCosts
