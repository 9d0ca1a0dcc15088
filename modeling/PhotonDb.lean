import PhotonDb.Codec.Buffer
import PhotonDb.Codec.Codec
import PhotonDb.Page.Layout
import PhotonDb.Page.SortedPage
import PhotonDb.Page.RoundTrip
import PhotonDb.Page.Rank
import PhotonDb.Engine.SortedPage
import PhotonDb.Engine.RoundTrip
import PhotonDb.Engine.Seek
import PhotonDb.Engine.Iter
import PhotonDb.Engine.Compat
import PhotonDb.Archive.BTreeMap
import PhotonDb.Archive.Data
import PhotonDb.Archive.Index
import PhotonDb.Archive.Chain
import PhotonDb.Archive.Size
import PhotonDb.Archive.Fences
import PhotonDb.Archive.Smo
import PhotonDb.Archive.Lifecycle
