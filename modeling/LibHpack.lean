import LibHpack.RoundTrip
import LibHpack.HeaderParser.Table
import LibHpack.HeaderParser.Cut
import LibHpack.HeaderParser.Termination
import LibHpack.Huffman.Accept
import LibHpack.BitmapRuns
import LibHpack.HeaderParser.Limit
import LibHpack.HeaderParser.Endings
import LibHpack.HeaderTable.Atomic
import LibHpack.RenderLiteral
import LibHpack.Buffer.Runs
import LibHpack.Huffman.Bounds
import LibHpack.LinkedList.Sort
import LibHpack.Avl.Map
import LibHpack.Avl.Levels
import LibHpack.Avl.Check
import LibHpack.Path.Short
import LibHpack.Uri.RoundTrip
import LibHpack.Buffer.Html
import LibHpack.Base64.RoundTrip
import LibHpack.Buffer.Slice
import LibHpack.Cstrings
import LibHpack.Buffer.Replace
import LibHpack.Format.Estimate
import LibHpack.Buffer.Dups
import LibHpack.Digest.Md5Runs
import LibHpack.Digest.Sha1Runs
import LibHpack.Digest.Sha512Runs
import LibHpack.Crc32
import LibHpack.Buffer.Sizes
import LibHpack.Buffer.Oom
import LibHpack.Buffer.MemMgr
import LibHpack.Buffer.Parsing
import LibHpack.HeaderStore
import LibHpack.Digest.Buffer
import LibHpack.EncoderSession
import LibHpack.Decoder.Emissions
