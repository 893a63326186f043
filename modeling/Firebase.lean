import Firebase.Database.DataHash
import Firebase.Database.EventCache
import Firebase.Database.TransactionQueue
import Firebase.Firestore.Core.LimitToLast
import Firebase.Firestore.Core.QueryListener
import Firebase.Firestore.Core.Transaction
import Firebase.Firestore.Core.ViewConsistency
import Firebase.Firestore.Core.ViewSession
import Firebase.Firestore.Immutable.SortedMapRefinement
import Firebase.Firestore.Local.CollectableDocuments
import Firebase.Firestore.Local.CollectionParents
import Firebase.Firestore.Local.LruGarbageCollector
import Firebase.Firestore.Local.MigratedOrphans
import Firebase.Firestore.Local.MutationQueueAgreement
import Firebase.Firestore.Local.OrphanedDocuments
import Firebase.Firestore.Model.ArrayTransforms
import Firebase.Firestore.Model.FieldPath
import Firebase.Firestore.Remote.CurrentTargets
import Firebase.Firestore.Remote.StreamLifecycle
import Firebase.Firestore.Remote.TargetChangeDiff
import Firebase.Firestore.Util.StringUtil
