import Hyperfetch.Range
import Hyperfetch.Text

/-!
# The segments of a stream (`HlsSegment`)

What a download of a playlist's segments reads of them. A link is one the url
crate gave, so that it holds no line break; a byte range is one `ByteRange::new`
or `from_len` gave.

Left out: a segment's duration.
-/

namespace Hyperfetch.Hls.Vod

open Weft

/-- A link as it is serialised. -/
structure Url where
  text : Text
  no_break : '\n' ∉ text
  deriving DecidableEq

/-- A byte range with its ends in order, within 64 bits. -/
abbrev Bytes := { range : ByteRange // range.Valid }

structure Aes128Key where
  key : List UInt8
  iv : List UInt8
  deriving DecidableEq

/-- Media initialization section (`#EXT-X-MAP`). -/
structure InitSection where
  url : Url
  byteRange : Option Bytes
  encryption : Option Aes128Key
  deriving DecidableEq

structure HlsSegment where
  /-- Its position among the segments downloaded. -/
  index : Nat
  /-- Its media sequence number. -/
  sequence : Nat
  url : Url
  byteRange : Option Bytes
  encryption : Option Aes128Key
  /-- What must precede this segment in the output. -/
  init : Option InitSection
  /-- Its timestamps need not follow on from the segment before. -/
  discontinuity : Bool
  deriving DecidableEq

/-- Where a segment's bytes are. -/
def HlsSegment.place (s : HlsSegment) : Url × Option Bytes := (s.url, s.byteRange)

end Hyperfetch.Hls.Vod
