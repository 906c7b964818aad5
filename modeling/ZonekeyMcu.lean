import ZonekeyMcu.Lib.Runs
import ZonekeyMcu.Lib.ListMoves
import ZonekeyMcu.Fault
import ZonekeyMcu.VideoMixer
import ZonekeyMcu.ZOrder
import ZonekeyMcu.Publisher
import ZonekeyMcu.PublisherSessions
import ZonekeyMcu.Bufferizer
import ZonekeyMcu.AudioMixer
import ZonekeyMcu.AudioTick
import ZonekeyMcu.Lib.Memory
import ZonekeyMcu.FilterGraph
import ZonekeyMcu.Options
import ZonekeyMcu.Logging
import ZonekeyMcu.Members
import ZonekeyMcu.DirectorFilters
import ZonekeyMcu.Conference
import ZonekeyMcu.DirectorParams
import ZonekeyMcu.ConferenceLoop
import ZonekeyMcu.Server
import ZonekeyMcu.Ownership
import ZonekeyMcu.ConferenceEffects
import ZonekeyMcu.ConferenceSound
import ZonekeyMcu.ConferenceCalls
import ZonekeyMcu.Wiring
import ZonekeyMcu.WiringStreams
import ZonekeyMcu.ConferenceRuns
import ZonekeyMcu.Destruction
import ZonekeyMcu.ServerCommands
import ZonekeyMcu.CommandTexts
import ZonekeyMcu.ServerRuns
import ZonekeyMcu.AudioChannels
import ZonekeyMcu.VideoChannels
import ZonekeyMcu.StreamCommands
import ZonekeyMcu.IdleSweep
import ZonekeyMcu.Lib.CyclicIds
import ZonekeyMcu.IdCounters
import ZonekeyMcu.Identifiers
import ZonekeyMcu.Refusals
import ZonekeyMcu.OptionCodec
import ZonekeyMcu.Lib.LastWins
import ZonekeyMcu.Lib.Watchdog
import ZonekeyMcu.OptionPairs
import ZonekeyMcu.Robustness
import ZonekeyMcu.Lib.BigEndian
import ZonekeyMcu.Lib.Returns
import ZonekeyMcu.Lib.Raster
import ZonekeyMcu.Lib.Layers
import ZonekeyMcu.Lib.Unwinding
import ZonekeyMcu.Amf
import ZonekeyMcu.Rfc3984
import ZonekeyMcu.Rfc3984Stream
import ZonekeyMcu.Rfc3984RoundTrip
import ZonekeyMcu.Rfc3984Loss
import ZonekeyMcu.AnnexB
import ZonekeyMcu.AnnexBSearch
import ZonekeyMcu.AnnexBSplit
import ZonekeyMcu.FlvWriter
import ZonekeyMcu.FlvTags
import ZonekeyMcu.FlvRecording
import ZonekeyMcu.FlvSize
import ZonekeyMcu.ConferenceTokens
import ZonekeyMcu.Answers
import ZonekeyMcu.Canvas
import ZonekeyMcu.PictureRows
import ZonekeyMcu.Painting
import ZonekeyMcu.AudioHistories
import ZonekeyMcu.AudioReuse
import ZonekeyMcu.Lib.TailList
import ZonekeyMcu.XmppHandlers
import ZonekeyMcu.SourceList
import ZonekeyMcu.XmppCommands
import ZonekeyMcu.NormalUser
import ZonekeyMcu.SentTasks
import ZonekeyMcu.WakeUps
import ZonekeyMcu.SyncRequests
import ZonekeyMcu.MixerHandover
import ZonekeyMcu.MixerRequests
import ZonekeyMcu.Lib.RefCounts
import ZonekeyMcu.ServerRegistry
import ZonekeyMcu.RegistryIds
import ZonekeyMcu.KVConfig
import ZonekeyMcu.ConfigCalls
import ZonekeyMcu.ZonekeyDirector
import ZonekeyMcu.AudioConferenceServer
import ZonekeyMcu.Rtcp
import ZonekeyMcu.RtcpHlp
import ZonekeyMcu.EventTokens
import ZonekeyMcu.Ticker
import ZonekeyMcu.Clipping
import ZonekeyMcu.Blending
import ZonekeyMcu.ZOrderMoves
import ZonekeyMcu.PositionExchange
import ZonekeyMcu.InputBuffers
import ZonekeyMcu.StartCodes
import ZonekeyMcu.SinkFrames
import ZonekeyMcu.NalRewriting
import ZonekeyMcu.SequenceHeader
import ZonekeyMcu.AmfBounds
import ZonekeyMcu.AmfSize
import ZonekeyMcu.Lib.Emulation
import ZonekeyMcu.NalFrames
import ZonekeyMcu.RtcpSessions
import ZonekeyMcu.Rfc3984Bounds
import ZonekeyMcu.ByteFifo
import ZonekeyMcu.XmlEscaping
import ZonekeyMcu.SourceListing
import ZonekeyMcu.ConferenceArray
import ZonekeyMcu.CommandAnswers
import ZonekeyMcu.KVLines
import ZonekeyMcu.StreamLiveness
import ZonekeyMcu.LiveCast
import ZonekeyMcu.Lib.SerialNumbers
import ZonekeyMcu.Lib.ReorderBuffer
import ZonekeyMcu.RtpQueue
import ZonekeyMcu.RtpReceive
import ZonekeyMcu.RtpAccounting
import ZonekeyMcu.RtpOrder
import ZonekeyMcu.RtpTicks
import ZonekeyMcu.RtpVideo
import ZonekeyMcu.RtpExtseq
import ZonekeyMcu.MessageBlocks
import ZonekeyMcu.MessageSound
import ZonekeyMcu.MessageChains
import ZonekeyMcu.MessageRuns
import ZonekeyMcu.Lib.LinkedRings
import ZonekeyMcu.QueueLinks
import ZonekeyMcu.Lib.DepthFirst
import ZonekeyMcu.TickerRuns
import ZonekeyMcu.GraphTables
import ZonekeyMcu.Json
import ZonekeyMcu.JsonPrinting
import ZonekeyMcu.JsonReading
