import Wbr1310.Comlib.MemHelperTracking
import Wbr1310.Comlib.SloopDeadlines
import Wbr1310.Comlib.SloopSignals
import Wbr1310.Comlib.Xmldbc
import Wbr1310.Comlib.XmldbcCommands
import Wbr1310.Hnap.Login
import Wbr1310.Hnap.MappingsKept
import Wbr1310.Hnap.ShellAction
import Wbr1310.Hnap.WholeValues
import Wbr1310.Html.LanPage
import Wbr1310.Httpd.AliasFile
import Wbr1310.Httpd.ImageBurn
import Wbr1310.Httpd.ImageSignature
import Wbr1310.Httpd.InputSafety
import Wbr1310.Httpd.MultipartUpload
import Wbr1310.Httpd.SessionId
import Wbr1310.Httpd.UploadBounds
import Wbr1310.Httpd.UploadBurn
import Wbr1310.IptString.UrlFilter
import Wbr1310.Rg.DomainFilter
import Wbr1310.Rg.FastNat
import Wbr1310.Rg.Filters
import Wbr1310.Rg.MacFilter
import Wbr1310.Rg.ScheduledForwards
import Wbr1310.Spiflash.Calls
import Wbr1310.Spiflash.SelfTest
import Wbr1310.StaticNat.AllOrNothing
import Wbr1310.StaticNat.Checksum
import Wbr1310.Syslogd.Log
import Wbr1310.Udhcpd.ConfigFile
import Wbr1310.Udhcpd.LeaseFile
import Wbr1310.Udhcpd.OptionBounds
import Wbr1310.Upnpd.Consistency
import Wbr1310.Upnpd.ReplyBuffer
