import Wtools.Byteorder
import Wtools.Library.RoseForest
import Wtools.Handle
import Wtools.Writer
import Wtools.Document
import Wtools.Bounds
import Wtools.Decode
import Wtools.Dico
import Wtools.Fields
import Wtools.FromJson
import Wtools.JsonParse
import Wtools.JsonRender
import Wtools.RoundTrip
import Wtools.TriePaths
import Wtools.TrieAdds
import Wtools.TrieWords
import Wtools.CachedDico
import Wtools.DicoTypes
import Wtools.FileRun
import Wtools.Insertion
import Wtools.TrieMap
import Wtools.Reopen
import Wtools.Nesting
import Wtools.Unwritten
import Wtools.Splice
import Wtools.PathSearch
import Wtools.Untrusted
import Wtools.StoredKeys
import Wtools.KeyIndices
import Wtools.RenderWhole
import Wtools.DeadEnds
import Wtools.RootKeys
import Wtools.Elements
import Wtools.ArrayCounts
import Wtools.FailedGrowth
import Wtools.RenderArrays
import Wtools.RenderIntegers
import Wtools.TrieOrder
import Wtools.TrieBounds
import Wtools.WeakCompare
import Wtools.AddFailures
import Wtools.Doubles
import Wtools.JsonNumbers
import Wtools.JsonTools
import Wtools.Progress
import Wtools.OpenStack
import Wtools.AppendOnly
import Wtools.Library.RedBlackTree
import Wtools.RbTree
import Wtools.RbInsert
import Wtools.RbSearch
import Wtools.RbFixUp
import Wtools.RbDelete
import Wtools.RbWalks
import Wtools.RbCalls
import Wtools.RbSessions
import Wtools.TrieRelease
import Wtools.TrieBuild
import Wtools.PrintDocument
import Wtools.Recover
import Wtools.Library.AssocList
import Wtools.Library.LinkedList
import Wtools.Stack
import Wtools.StackCalls
import Wtools.StackWorld
import Wtools.StackSessions
import Wtools.JsonLookup
import Wtools.Library.Ownership
import Wtools.Regrowth
import Wtools.HandleLife
import Wtools.HandleGoods
import Wtools.HandleSessions
import Wtools.HandleFiles
import Wtools.JsonLife
import Wtools.LogRuns
