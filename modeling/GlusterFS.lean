import GlusterFS.Acl.Permits
import GlusterFS.Afr.Changelog
import GlusterFS.Afr.ChangelogDirty
import GlusterFS.Afr.ChangelogSteps
import GlusterFS.Afr.Durability
import GlusterFS.Afr.EntryLock
import GlusterFS.Afr.SelfHeal
import GlusterFS.Afr.Symmetric
import GlusterFS.Changelog.Ascii
import GlusterFS.Changelog.Color
import GlusterFS.Changelog.Encode
import GlusterFS.Changelog.Update
import GlusterFS.CommonUtils.Iov
import GlusterFS.CommonUtils.IovLength
import GlusterFS.Dht.Anomalies
import GlusterFS.Dht.DiskLayout
import GlusterFS.Dht.Itransform
import GlusterFS.Dht.Layout
import GlusterFS.Dht.LockRequest
import GlusterFS.Dht.Overlap
import GlusterFS.Dict.Serialize
import GlusterFS.Dict.Table
import GlusterFS.Ec.Answer
import GlusterFS.Ec.Combine
import GlusterFS.Ec.Decode
import GlusterFS.Ec.DictCombine
import GlusterFS.Ec.Dispatch
import GlusterFS.Ec.DispatchOrder
import GlusterFS.Ec.Fragment
import GlusterFS.Ec.Gf
import GlusterFS.Ec.Heal
import GlusterFS.Ec.HealLocks
import GlusterFS.Ec.HealLoop
import GlusterFS.Ec.HealOthers
import GlusterFS.Ec.HealReport
import GlusterFS.Ec.IattCombine
import GlusterFS.Ec.Itransform
import GlusterFS.Ec.LockRange
import GlusterFS.Ec.LookupContent
import GlusterFS.Ec.Method
import GlusterFS.Ec.Muladd
import GlusterFS.Ec.Notify
import GlusterFS.Ec.Range
import GlusterFS.Ec.Readv
import GlusterFS.Ec.Truncate
import GlusterFS.Ec.Volume
import GlusterFS.Ec.Writev
import GlusterFS.Fd.Table
import GlusterFS.Glusterd.MgmtLocks
import GlusterFS.Lib.BinaryQuotient
import GlusterFS.Lib.CellRing
import GlusterFS.Lib.GaussJordan
import GlusterFS.Lib.IndexedOffset
import GlusterFS.Lib.KeyedSort
import GlusterFS.Lib.LockQueue
import GlusterFS.Lib.Loop
import GlusterFS.Lib.Machine
import GlusterFS.Lib.PointerList
import GlusterFS.Lib.Scatter
import GlusterFS.Lib.SharedMark
import GlusterFS.Lib.Striped
import GlusterFS.Lib.TextFields
import GlusterFS.Lib.Tiling
import GlusterFS.Lib.Timeline
import GlusterFS.Locks.ByteRange
import GlusterFS.Locks.Entrylk
import GlusterFS.Locks.Inodelk
import GlusterFS.Locks.Merge
import GlusterFS.Locks.Posix
import GlusterFS.Locks.PosixWakeup
import GlusterFS.Marker.Coalesce
import GlusterFS.Marker.Quota
import GlusterFS.Marker.Remove
import GlusterFS.QuickRead.Coherence
import GlusterFS.QuickRead.Content
import GlusterFS.Quota.CheckLimit
import GlusterFS.Quota.Parents
import GlusterFS.Quota.Walks
import GlusterFS.Socket.Outgoing
import GlusterFS.Stripe.Fallocate
import GlusterFS.Stripe.Layout
import GlusterFS.Syncop.Synclock
import GlusterFS.Syncop.Synctask
import GlusterFS.Syncop.Waitq
import GlusterFS.Timer.Registry
import GlusterFS.WriteBehind.Batches
