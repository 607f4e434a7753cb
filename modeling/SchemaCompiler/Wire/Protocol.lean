import SchemaCompiler.Wire.Shape

/-!
# Protocol types

The shapes of the protocol's content blocks, permission requests and prompt responses.
-/

namespace SchemaCompiler.Wire.Protocol

def required (name : String) (shape : Shape) : FieldHead × Shape :=
  (⟨name, .required⟩, shape)

def optional (name : String) (shape : Shape) : FieldHead × Shape :=
  (⟨name, .optional⟩, shape)

/-! ## Aliases and enumerations -/

def permissionOptionId : Shape := .text

def sessionId : Shape := .text

def protocolVersion : Shape := .integer .uint16

def requestId : Union where
  name := "RequestId"
  alternatives := [.integer .int64, .string]
  nullable := true

def errorCode : IntegerEnum where
  name := "ErrorCode"
  width := .int32
  members :=
    [("ParseError", -32700), ("InvalidRequest", -32600), ("MethodNotFound", -32601),
      ("InvalidParams", -32602), ("InternalError", -32603), ("AuthenticationRequired", -32000),
      ("ResourceNotFound", -32002)]
  other := some "Other"

def permissionOptionKind : Choices :=
  ⟨[("allow_once", "AllowOnce"), ("allow_always", "AllowAlways"), ("reject_once", "RejectOnce"),
    ("reject_always", "RejectAlways")]⟩

def role : Choices :=
  ⟨[("assistant", "Assistant"), ("user", "User")]⟩

def stopReason : Choices :=
  ⟨[("end_turn", "EndTurn"), ("max_tokens", "MaxTokens"),
    ("max_turn_requests", "MaxTurnRequests"), ("refusal", "Refusal"), ("cancelled", "Cancelled")]⟩

/-! ## Content -/

/-- Free data that any message may carry. -/
def freeData : FieldHead × Shape :=
  optional "_meta" .any

def annotations : Shape :=
  .record "Annotations"
    [freeData, optional "audience" (.list (.choice role)), optional "lastModified" .text,
      optional "priority" .float]

def audioContent : Shape :=
  .record "AudioContent"
    [freeData, optional "annotations" annotations, required "data" .text,
      required "mimeType" .text]

def imageContent : Shape :=
  .record "ImageContent"
    [freeData, optional "annotations" annotations, required "data" .text,
      required "mimeType" .text, optional "uri" .text]

def textContent : Shape :=
  .record "TextContent" [freeData, optional "annotations" annotations, required "text" .text]

def resourceLink : Shape :=
  .record "ResourceLink"
    [freeData, optional "annotations" annotations, optional "description" .text,
      optional "mimeType" .text, required "name" .text, optional "size" (.integer .int64),
      optional "title" .text, required "uri" .text]

def textResourceContents : Shape :=
  .record "TextResourceContents"
    [freeData, optional "mimeType" .text, required "text" .text, required "uri" .text]

def blobResourceContents : Shape :=
  .record "BlobResourceContents"
    [freeData, required "blob" .text, optional "mimeType" .text, required "uri" .text]

def embeddedResourceResource : Shape :=
  .untagged "EmbeddedResourceResource"
    [("TextResourceContents", textResourceContents), ("BlobResourceContents", blobResourceContents)]

def embeddedResource : Shape :=
  .record "EmbeddedResource"
    [freeData, optional "annotations" annotations, required "resource" embeddedResourceResource]

def contentBlock : Shape :=
  .tagged "ContentBlock" "type"
    [("audio", audioContent), ("image", imageContent), ("resource", embeddedResource),
      ("resource_link", resourceLink), ("text", textContent)]

def contentChunk : Shape :=
  .record "ContentChunk" [freeData, required "content" contentBlock]

/-! ## Permissions and prompts -/

def permissionOption : Shape :=
  .record "PermissionOption"
    [freeData, required "kind" (.choice permissionOptionKind), required "name" .text,
      required "optionId" permissionOptionId]

def promptResponse : Shape :=
  .record "PromptResponse" [freeData, required "stopReason" (.choice stopReason)]

def cancelledOutcome : Shape :=
  .record "RequestPermissionOutcomeCancelled" []

def selectedOutcome : Shape :=
  .record "SelectedPermissionOutcome" [freeData, required "optionId" permissionOptionId]

def requestPermissionOutcome : Shape :=
  .tagged "RequestPermissionOutcome" "outcome"
    [("cancelled", cancelledOutcome), ("selected", selectedOutcome)]

def requestPermissionResponse : Shape :=
  .record "RequestPermissionResponse" [freeData, required "outcome" requestPermissionOutcome]

/-- Every protocol type under its name. -/
def types : List (String × Shape) :=
  [("PermissionOptionId", permissionOptionId), ("ProtocolVersion", protocolVersion),
    ("RequestId", .union requestId), ("SessionId", sessionId),
    ("ErrorCode", .integerEnum errorCode), ("PermissionOptionKind", .choice permissionOptionKind),
    ("Role", .choice role), ("StopReason", .choice stopReason), ("Annotations", annotations),
    ("AudioContent", audioContent), ("BlobResourceContents", blobResourceContents),
    ("ContentBlock", contentBlock), ("ContentChunk", contentChunk),
    ("EmbeddedResource", embeddedResource), ("EmbeddedResourceResource", embeddedResourceResource),
    ("ImageContent", imageContent), ("PermissionOption", permissionOption),
    ("PromptResponse", promptResponse), ("RequestPermissionOutcome", requestPermissionOutcome),
    ("RequestPermissionOutcomeCancelled", cancelledOutcome),
    ("RequestPermissionResponse", requestPermissionResponse), ("ResourceLink", resourceLink),
    ("SelectedPermissionOutcome", selectedOutcome), ("TextContent", textContent),
    ("TextResourceContents", textResourceContents)]

end SchemaCompiler.Wire.Protocol
