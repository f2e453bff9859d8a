import MemoryService.Domain.Instant
import MemoryService.Foundation.Json

/-!
# Conversation data model

A message keeps the content it was given; `archive_status` says whether that content still stands
in the hot store.
-/

namespace MemoryService.Domain

open Foundation

inductive MessageRole where
  | user
  | assistant
  | system
  | tool
  | agent
  | event
  deriving DecidableEq

def MessageRole.value : MessageRole → String
  | .user => "USER"
  | .assistant => "ASSISTANT"
  | .system => "SYSTEM"
  | .tool => "TOOL"
  | .agent => "AGENT"
  | .event => "EVENT"

inductive MessageKind where
  | visible
  | internal
  deriving DecidableEq

def MessageKind.value : MessageKind → String
  | .visible => "VISIBLE"
  | .internal => "INTERNAL"

inductive ArchiveStatus where
  /-- durable in the store, not yet in the blob store -/
  | staged
  | archiving
  /-- blob written and verified, manifest persisted -/
  | archived
  /-- payload removed from the hot store after the grace period -/
  | purged
  deriving DecidableEq

structure MessageToolCall where
  id : String
  name : String
  arguments : List (String × Json)

structure Attachment where
  attachmentId : String
  messageId : String
  documentId : Option String
  filename : String
  mediaType : String
  sizeBytes : Nat
  checksum : String

/-- `Attachment.model_dump`: the fields in the order they are declared in. -/
def Attachment.modelDump (attachment : Attachment) : Json :=
  .obj
    [ ("attachment_id", .str attachment.attachmentId),
      ("message_id", .str attachment.messageId),
      ("document_id", attachment.documentId.elim .null .str),
      ("filename", .str attachment.filename),
      ("media_type", .str attachment.mediaType),
      ("size_bytes", .num (.ofNat attachment.sizeBytes)),
      ("checksum", .str attachment.checksum) ]

structure Message where
  messageId : String
  threadId : String
  sessionId : String
  turnId : String
  tenantId : String
  role : MessageRole
  kind : MessageKind := .visible
  /-- 1-based position within the thread -/
  sequence : Nat
  content : String := ""
  contentHash : String
  version : Nat := 1
  authorPrincipal : String
  agentRunId : Option String := none
  parentMessageId : Option String := none
  attachments : List Attachment := []
  toolCalls : List MessageToolCall := []
  toolCallId : Option String := none
  sourceSystem : Option String := none
  sourceMessageId : Option String := none
  occurredAt : Instant
  createdAt : Instant
  archiveStatus : ArchiveStatus := .staged
  customMetadata : List (String × Json) := []

end MemoryService.Domain
