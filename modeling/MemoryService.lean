import MemoryService.Archive.Readback
import MemoryService.Rag.EmbeddingCache
import MemoryService.WorkingMemory.Staleness
import MemoryService.Memory.Derivation
import MemoryService.Memory.MarksUndone
import MemoryService.Retrieval.Periods
import MemoryService.Memory.OneValue
import MemoryService.Feedback.Reindex
import MemoryService.Authz.Freshness
import MemoryService.Authz.Requested
import MemoryService.Feedback.VoteRuns
import MemoryService.Feedback.CountedOnce
import MemoryService.Subjects.Sameness
import MemoryService.Graph.Interleaving
import MemoryService.Graph.ValidTime
import MemoryService.Rag.Convergence
import MemoryService.Memory.RowUpdates
import MemoryService.Tools.Recording
import MemoryService.Conversation.ArchiveToCome
import MemoryService.Conversation.EpisodeToCome
import MemoryService.Tools.Rejections
import MemoryService.Tools.TwoUsers
import MemoryService.Approval.Accepting
import MemoryService.Graph.StoresAgree
import MemoryService.Graph.EntityUpserts
import MemoryService.Idempotency.Window
import MemoryService.Authz.StaleScopes
import MemoryService.Auth.RevokedKeys
import MemoryService.Tenancy.KeysReached
import MemoryService.Tenancy.RegistryOrder
import MemoryService.Context.KeptCores
import MemoryService.Sdk.SingleProbe
import MemoryService.Models.ConnectionLifetimes
import MemoryService.Profile.EditsKept
import MemoryService.Context.AtomicUnits
import MemoryService.Memory.RelatedPairs
import MemoryService.Memory.PhrasesSettled
import MemoryService.Memory.FalseMerges
import MemoryService.Tenancy.Memberships
import MemoryService.Memory.Listing
import MemoryService.Memory.VerbatimWindows
import MemoryService.WorkingMemory.NoteEviction
import MemoryService.Context.PinnedSections
import MemoryService.Conversation.SummaryChain
import MemoryService.Context.MemoryLines
import MemoryService.Retrieval.CurrentValues
import MemoryService.Profile.BlockRevisions
import MemoryService.Ingestion.Tables
import MemoryService.Ingestion.PageRanges
import MemoryService.Tools.Sources
import MemoryService.Tools.Hints
import MemoryService.Ingestion.Uploads
import MemoryService.Retrieval.MarkedItems
import MemoryService.Subjects.Spelling
import MemoryService.Tools.Flattening
import MemoryService.Context.ListedRules
import MemoryService.Idempotency.DerivedKeys
import MemoryService.Authz.OpenFga
import MemoryService.Grounding.Cascade
