import Sfs.Arpc.AclntRuns
import Sfs.Arpc.AsrvResumableRuns
import Sfs.Arpc.Svccb
import Sfs.Arpc.TraverseRoundTrip
import Sfs.Async.Aios
import Sfs.Async.Armor64
import Sfs.Async.BbuddyRuns
import Sfs.Async.DnsSock
import Sfs.Async.Dnsparse
import Sfs.Async.QhashRuns
import Sfs.Async.SuioCallbacks
import Sfs.Async.TimerRuns
import Sfs.Authd.FileUpdate
import Sfs.Authd.Keyhalves
import Sfs.Authd.OptionLists
import Sfs.Crypt.Barrett
import Sfs.Crypt.CryptLink
import Sfs.Crypt.Esign
import Sfs.Crypt.Mdblock
import Sfs.Crypt.MpzMisc
import Sfs.Crypt.OcbOffsets
import Sfs.Crypt.Pad
import Sfs.Crypt.PaillierDecryption
import Sfs.Crypt.Poly
import Sfs.Crypt.RabinMake
import Sfs.Crypt.Rsa
import Sfs.Crypt.SrpExchange
import Sfs.Crypt.SrpPrime
import Sfs.Crypt.Umac
import Sfs.Nfs.AttrCacheRuns
import Sfs.Nfs.LeaseRuns
import Sfs.Server.LoginRuns
import Sfs.Server.SessionKey
import Sfs.Sfsmisc.Credmap
import Sfs.Sfsmisc.SfspathNames
