import Aipl.Lib.Outcome
import Aipl.Lib.Bits
import Aipl.Lib.Probing
import Aipl.Std.Alloc
import Aipl.Std.Map.Invariant
import Aipl.Std.Map.Refinement
import Aipl.Lib.Memory
import Aipl.Lib.Wasm.Code
import Aipl.Lib.Wasm.Ops
import Aipl.Compiler.Alloc
import Aipl.Std.Heap.Model
import Aipl.Std.Heap.Classes
import Aipl.Std.Heap.Invariant
import Aipl.Std.Heap.Calls
import Aipl.Std.Heap.Runs
import Aipl.Std.Arena.Model
import Aipl.Std.Arena.Calls
import Aipl.Std.Arena.Runs
import Aipl.Checker.Layout
import Aipl.Checker.Items
import Aipl.Compiler.Flat
import Aipl.Vm.Scalars
import Aipl.Checker.Sums
import Aipl.Checker.Unions
import Aipl.Checker.Accepted
import Aipl.Vm.RoundTrip
import Aipl.Compiler.Values
import Aipl.Lib.Radix
import Aipl.Std.Bigint.Model
import Aipl.Std.Bigint.Limbs
import Aipl.Std.Bigint.Magnitude
import Aipl.Std.Bigint.Calls
import Aipl.Std.Bigint.Runs
import Aipl.Std.Blocks
import Aipl.Std.Buf.Model
import Aipl.Std.Buf.Invariant
import Aipl.Std.Buf.Writes
import Aipl.Lib.Numeral
import Aipl.Std.Buf.Numbers
import Aipl.Std.Buf.Runs
import Aipl.Std.Buf.Content
import Aipl.Std.Stream.Model
import Aipl.Std.Stream.Window
import Aipl.Std.Stream.Reads
import Aipl.Std.Stream.Runs
import Aipl.Std.Vec
import Aipl.Std.Stream.Writer
import Aipl.Std.Csv.Model
import Aipl.Std.Csv.Rows
import Aipl.Std.Csv.Reads
import Aipl.Std.Csv.Runs
import Aipl.Leaks.Model
import Aipl.Leaks.Runs
import Aipl.Lib.Fallible
import Aipl.Std.Http.Model
import Aipl.Std.Http.Wire
import Aipl.Std.Http.Scans
import Aipl.Std.Http.Heads
import Aipl.Std.Http.Framing
import Aipl.Std.Http.Bodies
import Aipl.Std.Http.Grammar
import Aipl.Std.Http.Frames
import Aipl.Std.Serve.Answers
import Aipl.Lib.Reading.Ends
import Aipl.Native.WasmReader.Decode
import Aipl.Native.WasmReader.Steady
import Aipl.Native.WasmReader.RoundTrip
import Aipl.Std.Heap.Smallest
import Aipl.Lib.Floats
import Aipl.Std.Bigint.Division
import Aipl.Std.Bigint.Quotient
import Aipl.Compiler.Loops
import Aipl.Checker.Expansion
import Aipl.Checker.ValueStructs
import Aipl.Compiler.Opt.Node
import Aipl.Compiler.Opt.Parity
import Aipl.Net.Connect
import Aipl.Consts.Model
import Aipl.Lib.Wasm.Ints
import Aipl.Consts.Meaning
import Aipl.Consts.Evaluation
import Aipl.Consts.Expansion
import Aipl.Lib.Bump
import Aipl.Std.Region.Model
import Aipl.Std.Region.Calls
import Aipl.Std.Region.Runs
import Aipl.Lib.Merging
import Aipl.Std.Sorting
import Aipl.Compiler.Checked
import Aipl.Std.Generations
import Aipl.Std.Str.Integers
import Aipl.Lib.Utf8
import Aipl.Std.Str.Utf8
import Aipl.Lib.Huffman
import Aipl.Std.Deflate.Lengths
import Aipl.Lib.Canonical
import Aipl.Std.Deflate.Codes
import Aipl.Lib.Factorization
import Aipl.Lib.TwoWay
import Aipl.Std.Str.Find
import Aipl.Std.Date.Calendar
import Aipl.Std.Date.Unix
import Aipl.Std.Date.Text
import Aipl.Std.Date.Parse
import Aipl.Std.Encode.Model
import Aipl.Std.Encode.Base64
import Aipl.Std.Encode.Escapes
import Aipl.Std.Url.Model
import Aipl.Std.Url.Queries
import Aipl.Std.Url.Resolve
import Aipl.Std.Url.Parse
import Aipl.Std.Url.Written
import Aipl.Std.Fmt.Model
import Aipl.Std.Fmt.Limbs
import Aipl.Lib.Rounding
import Aipl.Std.Fmt.Places
import Aipl.Std.Fmt.Fixed
import Aipl.Std.Bigint.Decimal
import Aipl.Std.Bigint.Numerals
import Aipl.Lib.Paths
import Aipl.Std.Path.Model
import Aipl.Std.Path.Runs
import Aipl.Std.Text.Model
import Aipl.Std.Text.Pieces
import Aipl.Std.Text.Runs
import Aipl.Compiler.Opt.Reach
import Aipl.Compiler.Lines.Model
import Aipl.Compiler.Lines.Readers
import Aipl.Compiler.Lines.RoundTrip
import Aipl.Lib.X64
import Aipl.Native.Lower.Values
import Aipl.Native.Lower.Args
import Aipl.Native.Lower.Operands
import Aipl.Native.Lower.Divide
import Aipl.Lib.Reading.Reads
import Aipl.Native.WasmReader.Coding
import Aipl.Lib.Wasm.Wide
import Aipl.Compiler.Dec
import Aipl.Std.Buf.Decimal
import Aipl.Lib.Congruential
import Aipl.Lib.Swaps
import Aipl.Std.Random.Below
import Aipl.Std.Random.Shuffles
import Aipl.Std.Ip.Names
import Aipl.Std.Ip.NameGrants
import Aipl.Lib.ForkJoin
import Aipl.Std.Par.Model
import Aipl.Std.Par.Parts
import Aipl.Std.Par.Results
import Aipl.Std.Html.Model
import Aipl.Std.Html.References
import Aipl.Std.Html.Unescaped
import Aipl.Std.Html.RoundTrip
import Aipl.Lib.SquareRoot
import Aipl.Sexpr.Flatten
import Aipl.Std.Math
import Aipl.Lib.Arm64
import Aipl.Native.Arm64.Model
import Aipl.Native.Arm64.Moves
import Aipl.Native.Arm64.Immediates
import Aipl.Lib.X86
import Aipl.Native.X64.Model
import Aipl.Native.X64.Decoded
import Aipl.Lib.AddressText
import Aipl.Std.Ip.Parse
import Aipl.Lib.Digests
import Aipl.Std.Hash.Model
import Aipl.Std.Hash.Blocks
import Aipl.Std.Hash.Pieces
