import RadioServices.Rotator.Rules
import RadioServices.Rotator.History
import RadioServices.Rotator.Schedule
import RadioServices.Rotator.Termination
import RadioServices.Rotator.Traversal
import RadioServices.Rotator.Weights
import RadioServices.Rotator.Completion
import RadioServices.Rotator.Duration
import RadioServices.Rotator.Shortfall
import RadioServices.Rotator.Turns
import RadioServices.Rotator.LongestPass
import RadioServices.Rotator.Seconds
import RadioServices.Logger.LocalStore
import RadioServices.Logger.RemoteStore
import RadioServices.Logger.LocalLog
import RadioServices.Logger.DeletePath
import RadioServices.Logger.Reply
import RadioServices.Logger.ClientSocket
import RadioServices.Logger.Alerts
import RadioServices.Logger.Generations
import RadioServices.Logger.Connection
import RadioServices.Logger.LogSize
import RadioServices.Logger.OwnLog
import RadioServices.Logger.AlertBox
import RadioServices.Logger.NewestMessages
import RadioServices.Accordion.Player
import RadioServices.Accordion.Playfile
import RadioServices.Accordion.AacBuffer
import RadioServices.Accordion.MpxBuffer
import RadioServices.Accordion.Playlist
import RadioServices.Accordion.UrlEncode
import RadioServices.Accordion.UrlComponents
import RadioServices.Accordion.Reporter
import RadioServices.Accordion.ConfigParam
import RadioServices.Accordion.Response
import RadioServices.Accordion.AacHeader
import RadioServices.Accordion.AacScan
import RadioServices.Accordion.MpxSeek
import RadioServices.Accordion.MpxTime
import RadioServices.Accordion.MpxPlay
import RadioServices.Accordion.Comment
import RadioServices.Musicgo.Range
import RadioServices.Musicgo.Preview
import RadioServices.Musicgo.MediaPath
import RadioServices.Musicgo.Mp3Tag
import RadioServices.Musicgo.Delivery
import RadioServices.Musicgo.AacTime
import RadioServices.Musicgo.ScanBound
import RadioServices.Musicgo.FirstRange
import RadioServices.Musicgo.UnknownParameter
import RadioServices.Musicgo.LogRecord
import RadioServices.Musicgo.LogQueue
import RadioServices.Musicgo.FrameStart
import RadioServices.Musicgo.AacBitrate
import RadioServices.IniSections
import RadioServices.IniParser
import RadioServices.IniSettings
import RadioServices.Station.StreamedTracks
import RadioServices.Station.AnnouncedRate
import RadioServices.Station.Base64
import RadioServices.Station.Resume
import RadioServices.Musicgo.PidFile
import RadioServices.Station.InfoLog
