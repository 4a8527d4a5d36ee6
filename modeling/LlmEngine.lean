import LlmEngine.Storage.Streamer
import LlmEngine.Storage.StreamerInv
import LlmEngine.Storage.StreamerOrder
import LlmEngine.Storage.StreamerWalk
import LlmEngine.Storage.Cache
import LlmEngine.Storage.CacheIndex
import LlmEngine.Storage.CacheContent
import LlmEngine.Lib.Lru
import LlmEngine.Storage.CacheLru
import LlmEngine.Cli.Forward
import LlmEngine.Cli.Generate
import LlmEngine.Cli.GenerateSerial
import LlmEngine.Cli.StateFile
import LlmEngine.Cli.Restore
import LlmEngine.Cli.Resume
import LlmEngine.Core.Moe
import LlmEngine.Core.MoePrefill
import LlmEngine.Core.Decoder
import LlmEngine.Core.Incremental
import LlmEngine.Cli.DecoderPass
import LlmEngine.Storage.StreamerSafe
import LlmEngine.Cli.Fingerprint
import LlmEngine.Lib.Int64
import LlmEngine.Tensor.Dtype
import LlmEngine.Formats.Gguf
import LlmEngine.Formats.GgufWalk
import LlmEngine.Formats.GgufPrefix
import LlmEngine.Formats.GgufOpen
import LlmEngine.Formats.GgufHostile
import LlmEngine.Formats.GgufEncode
import LlmEngine.Formats.GgufRoundTrip
import LlmEngine.Lib.PairMerge
import LlmEngine.Lib.Probe
import LlmEngine.Tokenizer.Bpe
import LlmEngine.Tokenizer.Encode
import LlmEngine.Tokenizer.Pieces
import LlmEngine.Tokenizer.RoundTrip
import LlmEngine.Tokenizer.Chat
import LlmEngine.Formats.GgufApart
import LlmEngine.Tokenizer.Reference
import LlmEngine.Lib.Regex
import LlmEngine.Tokenizer.Pretoken
import LlmEngine.Tokenizer.Special
import LlmEngine.Tokenizer.Splitting
import LlmEngine.Tokenizer.Template
import LlmEngine.Tokenizer.Rendered
import LlmEngine.Runtime.Memory
import LlmEngine.Runtime.Planner
import LlmEngine.Models.Qwen3
import LlmEngine.Storage.StreamerSizing
import LlmEngine.Models.Qwen3Plan
import LlmEngine.Runtime.ExpertCache
import LlmEngine.Storage.StreamerRounds
import LlmEngine.Storage.StreamerSound
import LlmEngine.Storage.StreamerTally
import LlmEngine.Models.Qwen3Resident
import LlmEngine.Storage.CacheStats
import LlmEngine.Lib.Rank
import LlmEngine.Storage.CacheBatch
import LlmEngine.Lib.ReadLoop
import LlmEngine.Storage.ReadAligned
import LlmEngine.Bind.Plan
import LlmEngine.Lib.ByteMem
import LlmEngine.Bind.Checkpoint
import LlmEngine.Bind.Resident
import LlmEngine.Bind.Packed
import LlmEngine.Bind.Tag
import LlmEngine.Bind.Agree
import LlmEngine.Kernels.Dot
import LlmEngine.Quant.KQuant
import LlmEngine.Runtime.Partition
import LlmEngine.Core.Scratch
import LlmEngine.Core.ScratchSound
import LlmEngine.Models.Kimi
import LlmEngine.Models.Qwen3Load
import LlmEngine.Models.KvFigure
import LlmEngine.Models.Qwen3Context
import LlmEngine.Lib.Chunks
import LlmEngine.Models.Qwen3Rows
import LlmEngine.Models.Qwen3Geometry
import LlmEngine.Bind.Expert
import LlmEngine.Tokenizer.SpecialRoundTrip
import LlmEngine.Tokenizer.Tables
import LlmEngine.Bind.Index
import LlmEngine.Core.Router
import LlmEngine.Cli.Draft
import LlmEngine.Tensor.View
import LlmEngine.Quant.Dequant
import LlmEngine.Quant.Layout
import LlmEngine.Quant.Exact
import LlmEngine.Bind.Scan
import LlmEngine.Bind.ScanSpan
import LlmEngine.Bind.ScanToken
import LlmEngine.Bind.ScanEntry
import LlmEngine.Bind.ScanDocument
import LlmEngine.Storage.CacheSlots
import LlmEngine.Lib.Base64
import LlmEngine.Tokenizer.Ranks
import LlmEngine.Cfg.Load
import LlmEngine.Cfg.Docs
import LlmEngine.Cfg.Shapes
import LlmEngine.Core.SourceSim
import LlmEngine.Lib.Record
import LlmEngine.Storage.CacheHonest
import LlmEngine.Cache.ExpertMeta
import LlmEngine.Cache.K3Cache
import LlmEngine.Cache.Serves
import LlmEngine.Cli.ForwardCalls
import LlmEngine.Cache.Transparent
import LlmEngine.Cache.Dump
import LlmEngine.Cache.Curve
import LlmEngine.Quant.RowOnly
import LlmEngine.Kernels.Dense
import LlmEngine.Models.Qwen3Decode
import LlmEngine.Models.Qwen3Phases
import LlmEngine.Models.Qwen3Succeeds
import LlmEngine.Models.Qwen3Recompute
import LlmEngine.Cli.Run
import LlmEngine.Models.Qwen3Run
import LlmEngine.Cfg.Json
import LlmEngine.Cfg.JsonRead
import LlmEngine.Cfg.JsonBounds
import LlmEngine.Cfg.JsonSpell
import LlmEngine.Cfg.LoadFile
import LlmEngine.Bind.TrunkOpen
