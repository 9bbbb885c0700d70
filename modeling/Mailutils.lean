import Mailutils.ListSlice
import Mailutils.ListQsort
import Mailutils.MsgsetNegate
import Mailutils.MsgsetTranslate
import Mailutils.ListIterator
import Mailutils.AssocPull
import Mailutils.Imapio
import Mailutils.DotmailAppend
import Mailutils.AmdExpunge
import Mailutils.MimeRewind
import Mailutils.MimeRanges
import Mailutils.AmdScan
import Mailutils.AddrEmail
import Mailutils.ContentFormat
import Mailutils.AddrFields
import Mailutils.AddrUnion
import Mailutils.UrlArgs
import Mailutils.WildMatch
import Mailutils.CidrText
import Mailutils.Calendar
import Mailutils.LinetrackRuns
import Mailutils.HeaderExclude
import Mailutils.StreamShift
import Mailutils.MaildirOrder
import Mailutils.MaildirName
import Mailutils.Crlf
import Mailutils.CrlfdotRuns
import Mailutils.QpRuns
import Mailutils.Percent
import Mailutils.Linelen
import Mailutils.InlineComment
import Mailutils.Base64Buffer
import Mailutils.Htmlent
import Mailutils.StreamCalls
import Mailutils.MsgsetRuns
