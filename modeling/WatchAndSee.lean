import WatchAndSee.Library.Ranking
import WatchAndSee.Library.Decimal
import WatchAndSee.Library.DecimalText
import WatchAndSee.Library.CodeUnits
import WatchAndSee.Library.Binary64
import WatchAndSee.Library.Dictionary
import WatchAndSee.Library.SortedListing
import WatchAndSee.Library.Enumerators
import WatchAndSee.Library.Documents
import WatchAndSee.Library.Overlays
import WatchAndSee.Library.OverlayStores
import WatchAndSee.Library.TrappingLoop
import WatchAndSee.Library.MarkedBlocks
import WatchAndSee.Library.Transitions
import WatchAndSee.Library.LatestChannel
import WatchAndSee.Source.SwiftValues
import WatchAndSee.Source.Model
import WatchAndSee.Source.ParseManager
import WatchAndSee.Source.DatabaseService
import WatchAndSee.Source.FChildrenNode
import WatchAndSee.Source.ParseWatch
import WatchAndSee.Source.InterfaceController
import WatchAndSee.Source.TimerInterfaceController
import WatchAndSee.Source.WatchController
import WatchAndSee.Source.WatchSystem
import WatchAndSee.Source.ImageLoading
import WatchAndSee.Source.RecipesDetailsViewController
import WatchAndSee.Source.ObjectsManager
import WatchAndSee.Source.ViewController
import WatchAndSee.Source.CategoryCell
import WatchAndSee.Source.PhoneScreens
import WatchAndSee.Source.PhoneApp
import WatchAndSee.Source.FLLRBValueNode
import WatchAndSee.Source.FTreeSortedDictionary
import WatchAndSee.Source.FImmutableSortedDictionary
import WatchAndSee.Source.FUtilities
import WatchAndSee.Source.FPath
import WatchAndSee.Source.FStoredNode
import WatchAndSee.Source.FValidation
import WatchAndSee.Source.FSnapshotUtilities
import WatchAndSee.Source.FImmutableTree
import WatchAndSee.Source.FCompoundWrite
import WatchAndSee.Source.FUpdateValues
import WatchAndSee.Source.FWriteTree
import WatchAndSee.Guarantees.FeedSafety
import WatchAndSee.Guarantees.SharedParser
import WatchAndSee.Guarantees.ParsedRecipe
import WatchAndSee.Guarantees.StepOrder
import WatchAndSee.Guarantees.FirebaseExport
import WatchAndSee.Guarantees.StepCodec
import WatchAndSee.Guarantees.WatchPages
import WatchAndSee.Guarantees.LatestRecipe
import WatchAndSee.Guarantees.HomeScreen
import WatchAndSee.Guarantees.BlankRecipes
import WatchAndSee.Guarantees.DishSelection
import WatchAndSee.Guarantees.RepeatedLoads
import WatchAndSee.Guarantees.StepReaders
import WatchAndSee.Guarantees.TimerTaps
import WatchAndSee.Guarantees.PhoneRuns
import WatchAndSee.Guarantees.TreeBalance
import WatchAndSee.Guarantees.TreeRemoval
import WatchAndSee.Guarantees.TreeContents
import WatchAndSee.Guarantees.TreeBuilder
import WatchAndSee.Guarantees.ArrayContents
import WatchAndSee.Guarantees.SortedDictionary
import WatchAndSee.Guarantees.SortedDictionaryRuns
import WatchAndSee.Guarantees.ChildOrder
import WatchAndSee.Guarantees.StoredNodes
import WatchAndSee.Guarantees.StoredValues
import WatchAndSee.Guarantees.NodeValues
import WatchAndSee.Guarantees.NodeRoundTrip
import WatchAndSee.Guarantees.NodePaths
import WatchAndSee.Guarantees.ImmutableTrees
import WatchAndSee.Guarantees.CompoundWrites
import WatchAndSee.Guarantees.UpdateValues
import WatchAndSee.Guarantees.AppliedWrites
import WatchAndSee.Guarantees.BatchedWrites
import WatchAndSee.Guarantees.ChildListings
import WatchAndSee.Guarantees.PendingWrites
import WatchAndSee.Guarantees.EventCaches
import WatchAndSee.Guarantees.LayeredCaches
