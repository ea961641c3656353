import Hyperfetch.Weft.TSys
import Hyperfetch.RangeAlgebra
import Hyperfetch.Chunk.Manager
import Hyperfetch.Chunk.Books
import Hyperfetch.Chunk.Operations
import Hyperfetch.Chunk.Resume
import Hyperfetch.Chunk.Runs
import Hyperfetch.Weft.Streak
import Hyperfetch.Chunk.Steal
import Hyperfetch.Chunk.Retries
import Hyperfetch.Weft.Fields
import Hyperfetch.Worker.Attempt
import Hyperfetch.Worker.Response
import Hyperfetch.Worker.Custody
import Hyperfetch.Worker.Handover
import Hyperfetch.Worker.Download
import Hyperfetch.Worker.Safety
import Hyperfetch.Ftp.Safety
import Hyperfetch.Engine.Claim
import Hyperfetch.Engine.Mirrors
import Hyperfetch.Engine.Persist
import Hyperfetch.Engine.Ramp
import Hyperfetch.Engine.Filename
import Hyperfetch.Torrent.Paths
import Hyperfetch.Weft.Base64
import Hyperfetch.Weft.Checked
import Hyperfetch.Weft.Words
import Hyperfetch.Torrent.RoundTrip
import Hyperfetch.Hosts.Grants
import Hyperfetch.Hosts.Caps
import Hyperfetch.Hosts.Wakeups
import Hyperfetch.Hosts.Memory
import Hyperfetch.Mega.Mac
import Hyperfetch.Storage.Steps
import Hyperfetch.Storage.Groups
import Hyperfetch.Storage.Follow
import Hyperfetch.Storage.Digest
import Hyperfetch.Browser.File
import Hyperfetch.Browser.Relay
import Hyperfetch.Browser.NoHole
import Hyperfetch.Updater.Folder
import Hyperfetch.Updater.Swap
import Hyperfetch.Weft.Percent
import Hyperfetch.Weft.Utf8
import Hyperfetch.Weft.Text
import Hyperfetch.Media.Archive
import Hyperfetch.Zip.Bounds
import Hyperfetch.Subs.Escape
import Hyperfetch.Subs.Stamp
import Hyperfetch.Subs.Reread
import Hyperfetch.Weft.Spans
import Hyperfetch.Subs.Join
import Hyperfetch.Weft.Cuts
import Hyperfetch.Subs.Styled
import Hyperfetch.Subs.Paragraph
import Hyperfetch.Subs.Boxes
import Hyperfetch.Subs.Mp4
import Hyperfetch.Subs.Budget
import Hyperfetch.Zip.Archive
import Hyperfetch.Zip.Remote
import Hyperfetch.Hls.InOrder
import Hyperfetch.Hls.Orderly
import Hyperfetch.Hls.Resume
import Hyperfetch.Weft.Newest
import Hyperfetch.Hls.Live
import Hyperfetch.Hls.Recorded
import Hyperfetch.Hls.Breaks
import Hyperfetch.Hls.Rounds
import Hyperfetch.Weft.Recent
import Hyperfetch.History.Entry
import Hyperfetch.History.Store
import Hyperfetch.History.Redaction
import Hyperfetch.Decrypt.Keys
import Hyperfetch.Engine.Escapes
import Hyperfetch.Engine.Params
import Hyperfetch.Weft.Calendar
import Hyperfetch.Engine.Dates
import Hyperfetch.Queue.Schedule
import Hyperfetch.Hls.Fingerprint
import Hyperfetch.Hls.Merge
import Hyperfetch.Hls.Disguise
import Hyperfetch.Repair.Prepare
import Hyperfetch.Weft.Marks
import Hyperfetch.Repair.InPlace
import Hyperfetch.Weft.Find
import Hyperfetch.History.Messages
import Hyperfetch.Weft.InTurn
import Hyperfetch.Stream.Pattern
import Hyperfetch.Weft.Ascii
import Hyperfetch.Ftp.Reply
import Hyperfetch.Weft.LastIn
import Hyperfetch.Queue.Timetable
import Hyperfetch.Storage.Pieced
import Hyperfetch.Weft.Strides
import Hyperfetch.Recording.Boxes
import Hyperfetch.Recording.Layout
import Hyperfetch.Recording.Webm
import Hyperfetch.Weft.Firsts
import Hyperfetch.Weft.Clocks
import Hyperfetch.Recording.Timelines
import Hyperfetch.Dash.Sidx
import Hyperfetch.Weft.Fringe
import Hyperfetch.Dash.Indexes
import Hyperfetch.Storage.Written
import Hyperfetch.Hls.Strip
import Hyperfetch.Weft.Slots
import Hyperfetch.Worker.Limiter
import Hyperfetch.Weft.Parts
import Hyperfetch.Concat.Server
import Hyperfetch.Concat.Slices
import Hyperfetch.Media.Lists
import Hyperfetch.Media.Newest
import Hyperfetch.Hls.Tally
import Hyperfetch.Paste.Words
import Hyperfetch.Paste.Quoting
import Hyperfetch.Paste.PowerShell
import Hyperfetch.Weft.Breadth
import Hyperfetch.Folders.Drive
import Hyperfetch.Folders.Places
import Hyperfetch.Weft.Lowercase
import Hyperfetch.Weft.Numbered
import Hyperfetch.Feeds.Names
import Hyperfetch.Feeds.Listing
import Hyperfetch.Stream.Tracks
import Hyperfetch.Stream.Choice
import Hyperfetch.Weft.Leases
import Hyperfetch.Queue.Operations
import Hyperfetch.Gui.Jobs
import Hyperfetch.Gui.Runs
import Hyperfetch.Gui.Scheduling
import Hyperfetch.Targets.Runs
import Hyperfetch.Queue.Restart
import Hyperfetch.Weft.Outbox
import Hyperfetch.Gui.Saving
import Hyperfetch.Hls.Playlist
import Hyperfetch.Hls.InForce
import Hyperfetch.Checks.Checksum
import Hyperfetch.Checks.Passes
import Hyperfetch.Checks.Stream
import Hyperfetch.Checks.Taken
