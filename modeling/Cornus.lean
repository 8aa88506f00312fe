import Cornus.BlockCache.StoreRuns
import Cornus.Wire.ConcurrentRuns
import Cornus.Wire.ClientRuns
import Cornus.Wire.Namespace
import Cornus.Wire.ConfinedExport
import Cornus.Compose.ProfileView
import Cornus.Compose.Include
import Cornus.Storage.UploadIntegrity
import Cornus.Storage.SessionWrites
import Cornus.Storage.CatalogFresh
import Cornus.Hub.RedisConverge
import Cornus.Hub.KubeConverge
import Cornus.Kubernetes.NetworkGc
import Cornus.Kubernetes.ReapplyConverge
import Cornus.Kubernetes.VolumeLoss
import Cornus.Registry.Ingest
import Cornus.Egress.Bypass
import Cornus.Auth.ScopeClaim
import Cornus.Auth.Exchange
import Cornus.Tarcopy.RoundTrip
import Cornus.Socks5.Connect
import Cornus.Socks5.Borrowed
import Cornus.Activity.Timestamps
import Cornus.Registry.Requests
import Cornus.Storage.CollectShared
import Cornus.Compose.EnvFiles
import Cornus.Wire.FsyncReply
import Cornus.Wire.Transport
import Cornus.Wire.BodyFrames
import Cornus.Auth.ClaimPath
import Cornus.Compose.PeerRecords
import Cornus.Registry.Paging
import Cornus.Auth.TokenCache
import Cornus.Server.SideChannels
import Cornus.Ingress.Lookup
import Cornus.Ingress.Rebuild
