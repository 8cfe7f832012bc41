import Copse.KDTreeSearch
import Copse.KDTreeUpdates
import Copse.EvictionOrder
import Copse.KDTreeDecrements
import Copse.KDTreeTotalCounts
import Copse.DepthBounds
import Copse.KDTreeGrowth
import Copse.KDTreePartition
import Copse.KDTreeReleases
import Copse.Violators
import Copse.KDTreeBuckets
import Copse.KDTreeScopedSweep
import Copse.KDTreeViews
import Copse.SearchAgreement
import Copse.StampReuse
import Copse.BuildOutcome
import Copse.InPlaceRebuild
import Copse.DescendBounds
import Copse.RecordedNodes
import Copse.AmortizedRebuilds
import Copse.OccupancyAge
import Copse.StreamBounds
import Copse.KDTreeTraces
import Copse.KnobIndependence
import Copse.KDTreeNet
import Copse.DeletionOrder
import Copse.SearchVisits
import Copse.BatchCuts
import Copse.StructureViz
