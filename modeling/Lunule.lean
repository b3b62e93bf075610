import Lunule.Frag.Dirfrags
import Lunule.Balancer.PotLoad
import Lunule.Balancer.Transport
import Lunule.Balancer.Epoch
import Lunule.Balancer.Decision
import Lunule.Migrator.Queue
import Lunule.Caps.Tracking
import Lunule.Cache.Window
import Lunule.InoTable.Projection
import Lunule.Flock.Deadlock
import Lunule.Snap.Replay
import Lunule.Snap.Agreement
import Lunule.Pg.ReverseIndex
import Lunule.Pg.Rewrite
import Lunule.Pg.Authoritative
import Lunule.ObjectKey.RoundTrip
import Lunule.ObjectKey.Range
import Lunule.Crush.Permutation
import Lunule.Crush.ListWeights
import Lunule.Bluestore.RefRelease
import Lunule.Bluestore.Compress
import Lunule.Osdmap.UpSet
import Lunule.Purge.Expire
import Lunule.Striper.Truncate
import Lunule.Osdc.Durable
import Lunule.ClsLock.Exclusion
import Lunule.AuthCaps.Basic
import Lunule.OsdCap.Basic
import Lunule.Ec.PlanSound
import Lunule.ObjectStore.Transaction
import Lunule.Elector.Winner
import Lunule.Frag.FragSet
import Lunule.Freelist.Verify
import Lunule.Denc.Integers
