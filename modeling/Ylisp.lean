import Ylisp.Hash.Basic
import Ylisp.Library.Loop
import Ylisp.Library.Marking
import Ylisp.Mempool.Blktbl
import Ylisp.Trie.Basic
import Ylisp.Trie.Walk
import Ylisp.Library.Answer
import Ylisp.Trie.Ops
import Ylisp.Trie.Lookup
import Ylisp.Trie.Equal
import Ylisp.Hash.Map
import Ylisp.Hash.Refine
import Ylisp.Mempool.Element
import Ylisp.Mempool.Gc
import Ylisp.Mempool.GcSpec
import Ylisp.Library.Machine
import Ylisp.Parser.Automata
import Ylisp.Parser.Stack
import Ylisp.Parser.Lex
import Ylisp.Parser.Scan
import Ylisp.Parser.Accept
import Ylisp.Parser.Expr
import Ylisp.Parser.Zipper
import Ylisp.Parser.RoundTrip
import Ylisp.Parser.Outline
import Ylisp.Parser.Spine
import Ylisp.Parser.Rounds
import Ylisp.Parser.Quotes
import Ylisp.Parser.Trailing
import Ylisp.Parser.Shift
import Ylisp.Parser.Compose
import Ylisp.Library.Exec
import Ylisp.Library.Framing
import Ylisp.Sock.Basic
import Ylisp.Sock.Recv
import Ylisp.Sock.Shared
import Ylisp.Lisp.Readv
import Ylisp.Mthread.Basic
import Ylisp.Mthread.Safe
import Ylisp.Mthread.Mutex
import Ylisp.Mthread.Born
import Ylisp.Mthread.Kill
import Ylisp.Library.Effect
import Ylisp.Eval.Heap
import Ylisp.Eval.Machine
import Ylisp.Eval.BaseBlocks
import Ylisp.Eval.EvalStack
import Ylisp.Mempool.Grow
import Ylisp.Eval.HeapSpec
import Ylisp.Eval.Clone
import Ylisp.Eval.Pending
import Ylisp.Eval.Forms
import Ylisp.Eval.Assign
import Ylisp.Eval.Tables
import Ylisp.Eval.Local
import Ylisp.Eval.Protect
import Ylisp.Mthread.Resources
import Ylisp.Yld.Dynb
import Ylisp.Yld.Pdu
import Ylisp.Mempool.Table
import Ylisp.Library.Closing
import Ylisp.Mempool.Descriptors
import Ylisp.Ylext.Map
import Ylisp.Trie.Entries
import Ylisp.Trie.Free
import Ylisp.Symlookup.Table
import Ylisp.Symlookup.Candidates
import Ylisp.Library.Lockstep
import Ylisp.Ylext.MapEq
import Ylisp.Library.Prefix
import Ylisp.Trie.Edits
import Ylisp.Trie.Complete
import Ylisp.Sock.Send
import Ylisp.Yld.Failures
import Ylisp.Lisp.Print
import Ylisp.Lisp.Unfold
import Ylisp.Lisp.Reread
import Ylisp.Eval.Number
import Ylisp.Eval.Build
import Ylisp.Eval.Sublis
import Ylisp.Library.Calls
import Ylisp.Eval.Label
import Ylisp.Eval.Let
import Ylisp.Library.Crc
import Ylisp.Ylext.Crc
import Ylisp.Library.Occurrence
import Ylisp.Ylext.Cstring
import Ylisp.Ylext.Search
import Ylisp.Ylext.Replace
import Ylisp.Ylext.Lines
import Ylisp.Ylext.Regex
import Ylisp.Ylext.FrawRead
import Ylisp.Ylext.Binary
import Ylisp.Library.Rounding
import Ylisp.Ylext.ToBin
import Ylisp.Library.Bubble
import Ylisp.Yls.Bsort
import Ylisp.Library.Linked
import Ylisp.Lisp.Yllist
import Ylisp.Mempool.Usage
import Ylisp.Ylbase.Arith
import Ylisp.Library.Critical
import Ylisp.Mempool.Bbs
import Ylisp.Mempool.Scans
import Ylisp.Ylext.Array
import Ylisp.Ylext.ArrayMap
import Ylisp.Library.Approx
import Ylisp.Eval.Fuel
import Ylisp.Library.Must
import Ylisp.Eval.Natives
import Ylisp.Mempool.GcKind
import Ylisp.Lang.Tree
import Ylisp.Lang.Adds
import Ylisp.Lang.Rules
import Ylisp.Lang.Heap
import Ylisp.Lang.Bind
import Ylisp.Lang.Evals
import Ylisp.Lang.Call
import Ylisp.Lang.Carries
import Ylisp.Lang.Sound
import Ylisp.Lang.Base
import Ylisp.Lang.Within
import Ylisp.Lang.Sfunc
import Ylisp.Lang.BaseSpec
import Ylisp.Lang.Select
import Ylisp.Lang.ExtSpec
import Ylisp.Lang.Load
import Ylisp.Lang.Library
import Ylisp.Symlookup.Complete
import Ylisp.Symlookup.Refine
import Ylisp.Yld.Autocomp
import Ylisp.Yld.Event
