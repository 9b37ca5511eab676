import Cuca.Canonical
import Cuca.Postcard
import Cuca.Request

/-!
# The digest of a request

`digestRequest` is the lowercase hexadecimal SHA-256 of `requestBytes`, the postcard encoding of the digest view of a
request. Every JSON value within is encoded as canonical text.

`numberText` is the text `serde_json` gives a number, `sha256` the hash.

* `UnifiedRequest.Reordered` : equal up to the order of the members of JSON objects;
* `delimits_block`, `delimits_message`, `delimits_tool`, `delimits_request` : each view can be read from the front;
* `digest_input_canonical` : requests are encoded alike exactly when they are equal up to that order.
-/

namespace Cuca

inductive PromptCacheError where
  | config (message : String)
  | validation (field : String) (message : String)
  | json (message : String)
  | lock (message : String)
  deriving DecidableEq, Repr

namespace PromptDigest
open Postcard Canonical

/-! ## The wire form of the plain types -/

def providerBytes : ProviderEndpoint → Bytes
  | .llamaCpp => varint 0
  | .vllm => varint 1
  | .lmStudio => varint 2
  | .openAi => varint 3
  | .anthropic => varint 4
  | .googleGemini => varint 5
  | .deepSeek => varint 6
  | .localModel => varint 7
  | .custom key => varint 8 ++ str key

def roleBytes : MessageRole → Bytes
  | .system => varint 0
  | .user => varint 1
  | .assistant => varint 2
  | .tool => varint 3

def effortBytes : ThinkingEffort → Bytes
  | .minimal => varint 0
  | .low => varint 1
  | .medium => varint 2
  | .high => varint 3
  | .xHigh => varint 4

/-- Adjacently tagged: a structure of the variant and its content. -/
def paramsBytes : ThinkingParams → Bytes
  | .none => varint 0
  | .anthropic budgetTokens adaptive => varint 1 ++ (option varint budgetTokens ++ bool adaptive)
  | .gemini thinkingBudget thinkingLevel => varint 2 ++ (option varint thinkingBudget ++ option str thinkingLevel)
  | .openAi reasoningEffort => varint 3 ++ option str reasoningEffort

def thinkingBytes (thinking : ThinkingConfig) : Bytes :=
  bool thinking.enabled ++ (option effortBytes thinking.effort ++ paramsBytes thinking.params)

def breakpointBytes (breakpoint : PromptCacheBreakpoint) : Bytes :=
  varint breakpoint.messageIndex ++ varint breakpoint.blockIndex

def directiveBytes : PromptCacheDirective → Bytes
  | .disabled => varint 0
  | .ephemeral breakpoints => varint 1 ++ seq breakpointBytes breakpoints

/-! ## The digest views -/

variable (numberText : Number → List Char)

/-- `BlockDigest`. -/
def blockDigest : MessageContentBlock → Bytes
  | .text text => varint 0 ++ str text
  | .imageBase64 mediaType data => varint 1 ++ (str mediaType ++ str data)
  | .thinking reasoning signature => varint 2 ++ (str reasoning ++ option str signature)
  | .toolCall id name arguments => varint 3 ++ (str id ++ (str name ++ str (canonicalValue numberText arguments)))
  | .toolResult toolCallId output => varint 4 ++ (str toolCallId ++ str output)

/-- `MessageDigest`. -/
def messageDigest (message : UnifiedMessage) : Bytes :=
  roleBytes message.role ++ (seq (blockDigest numberText) message.content ++
    (option str message.name ++ option str message.toolCallId))

/-- `ToolDigest`. -/
def toolDigest (tool : ToolDefinition) : Bytes :=
  str tool.name ++ (str tool.description ++ str (canonicalValue numberText tool.inputSchema))

/-- `RequestDigest`: what is hashed. -/
def requestBytes (request : UnifiedRequest) : Bytes :=
  str request.model ++ (providerBytes request.provider ++ (seq (messageDigest numberText) request.messages ++
    (option f32 request.temperature ++ (option varint request.maxTokens ++ (bool request.stream ++
      (option thinkingBytes request.thinking ++ (seq (toolDigest numberText) request.tools ++
        directiveBytes request.promptCache)))))))

/-! ## The digest -/

/-- `f32::is_finite`: the exponent bits are not all set. -/
def isFinite (bits : UInt32) : Bool := (bits >>> 23) &&& 0xff != 0xff

def toLowerHex (bytes : Bytes) : String :=
  String.ofList (bytes.flatMap fun b => [hexDigit (b.toNat / 16), hexDigit (b.toNat % 16)])

variable (sha256 : Bytes → Vector UInt8 32)

/-- The key of a request. A temperature that is not finite is refused. -/
def digestRequest (request : UnifiedRequest) : Except PromptCacheError String :=
  if request.temperature.any (!isFinite ·) then .error (.validation "temperature" "temperature must be finite")
  else .ok (toLowerHex (sha256 (requestBytes numberText request)).toList)

end PromptDigest
end Cuca

/-! ## What is hashed determines the request

The bytes a digest hashes are the same for two requests exactly if the requests are equal up to the order of the members of
objects within tool calls and tool schemas.
-/

namespace Cuca

/-! ## Requests up to the order of members -/

inductive MessageContentBlock.Reordered : MessageContentBlock → MessageContentBlock → Prop
  | refl (block : MessageContentBlock) : Reordered block block
  | toolCall {v w : Value} (id name : String) : v.Reordered w → Reordered (.toolCall id name v) (.toolCall id name w)

structure UnifiedMessage.Reordered (a b : UnifiedMessage) : Prop where
  role : a.role = b.role
  content : List.Forall₂ MessageContentBlock.Reordered a.content b.content
  name : a.name = b.name
  toolCallId : a.toolCallId = b.toolCallId

structure ToolDefinition.Reordered (a b : ToolDefinition) : Prop where
  name : a.name = b.name
  description : a.description = b.description
  inputSchema : a.inputSchema.Reordered b.inputSchema

structure UnifiedRequest.Reordered (a b : UnifiedRequest) : Prop where
  model : a.model = b.model
  provider : a.provider = b.provider
  messages : List.Forall₂ UnifiedMessage.Reordered a.messages b.messages
  temperature : a.temperature = b.temperature
  maxTokens : a.maxTokens = b.maxTokens
  stream : a.stream = b.stream
  thinking : a.thinking = b.thinking
  tools : List.Forall₂ ToolDefinition.Reordered a.tools b.tools
  promptCache : a.promptCache = b.promptCache

/-- The keys of every object in the arguments of a call are distinct. -/
def MessageContentBlock.DistinctKeys : MessageContentBlock → Prop
  | .toolCall _ _ arguments => arguments.DistinctKeys
  | _ => True

/-- The keys of every object within are distinct, as those of a `serde_json::Map` are. -/
structure UnifiedRequest.DistinctKeys (request : UnifiedRequest) : Prop where
  messages : ∀ message ∈ request.messages, ∀ block ∈ message.content, block.DistinctKeys
  tools : ∀ tool ∈ request.tools, tool.inputSchema.DistinctKeys

namespace PromptDigest
open PrefixCode Postcard Canonical

/-! ## The plain types -/

section
variable {α : Type*} {encode : α → Bytes}

theorem delimits_optionEq (h : Delimits Eq encode) : Delimits Eq (option encode) :=
  (delimits_option h).imp fun a b hrel => by
    cases hrel with
    | none => rfl
    | some heq => rw [heq]

theorem delimits_seqEq (h : Delimits Eq encode) : Delimits Eq (seq encode) :=
  (delimits_seq h).imp fun _ _ hall => List.forall₂_eq_eq_eq ▸ hall

theorem delimits_tag (tag : α → Nat) (hencode : ∀ a, encode a = varint (tag a)) (hinjective : Function.Injective tag) :
    Delimits Eq encode := by
  intro a b x y h
  rw [hencode, hencode] at h
  obtain ⟨htag, hend⟩ := delimits_varint _ _ _ _ h
  exact ⟨hinjective htag, hend⟩

end

def roleTag : MessageRole → Nat
  | .system => 0
  | .user => 1
  | .assistant => 2
  | .tool => 3

theorem delimits_role : Delimits Eq roleBytes := by
  refine delimits_tag roleTag (fun role => by cases role <;> rfl) fun a b h => ?_
  cases a <;> cases b <;> first | rfl | cases h

def effortTag : ThinkingEffort → Nat
  | .minimal => 0
  | .low => 1
  | .medium => 2
  | .high => 3
  | .xHigh => 4

theorem delimits_effort : Delimits Eq effortBytes := by
  refine delimits_tag effortTag (fun effort => by cases effort <;> rfl) fun a b h => ?_
  cases a <;> cases b <;> first | rfl | cases h

def providerTag : ProviderEndpoint → Nat
  | .llamaCpp => 0
  | .vllm => 1
  | .lmStudio => 2
  | .openAi => 3
  | .anthropic => 4
  | .googleGemini => 5
  | .deepSeek => 6
  | .localModel => 7
  | .custom _ => 8

def providerPayload : ProviderEndpoint → Bytes
  | .custom key => str key
  | _ => []

theorem delimits_provider : Delimits Eq providerBytes := by
  refine delimits_variant providerTag providerPayload (fun provider => by cases provider <;> simp [providerBytes, providerTag, providerPayload])
    fun a b x y htag h => ?_
  cases a with
  | custom key =>
    cases b with
    | custom key' =>
      obtain ⟨rfl, hend⟩ := delimits_str key key' x y h
      exact ⟨rfl, hend⟩
    | _ => cases htag
  | _ => cases b <;> first | exact ⟨rfl, h⟩ | cases htag

def paramsTag : ThinkingParams → Nat
  | .none => 0
  | .anthropic _ _ => 1
  | .gemini _ _ => 2
  | .openAi _ => 3

def paramsPayload : ThinkingParams → Bytes
  | .none => []
  | .anthropic budgetTokens adaptive => option varint budgetTokens ++ bool adaptive
  | .gemini thinkingBudget thinkingLevel => option varint thinkingBudget ++ option str thinkingLevel
  | .openAi reasoningEffort => option str reasoningEffort

theorem delimits_params : Delimits Eq paramsBytes := by
  have hbudget := delimits_optionEq delimits_varint
  have htext := delimits_optionEq delimits_str
  refine delimits_variant paramsTag paramsPayload (fun params => by cases params <;> simp [paramsBytes, paramsTag, paramsPayload])
    fun a b x y htag h => ?_
  cases a with
  | none =>
    cases b with
    | none => exact ⟨rfl, h⟩
    | _ => cases htag
  | anthropic budgetTokens adaptive =>
    cases b with
    | anthropic budgetTokens' adaptive' =>
      obtain ⟨⟨hb, ha⟩, hend⟩ := (hbudget.comap Prod.fst).append (delimits_bool.comap Prod.snd)
        (budgetTokens, adaptive) (budgetTokens', adaptive') x y h
      exact ⟨by rw [show budgetTokens = budgetTokens' from hb, show adaptive = adaptive' from ha], hend⟩
    | _ => cases htag
  | gemini thinkingBudget thinkingLevel =>
    cases b with
    | gemini thinkingBudget' thinkingLevel' =>
      obtain ⟨⟨hb, hl⟩, hend⟩ := (hbudget.comap Prod.fst).append (htext.comap Prod.snd)
        (thinkingBudget, thinkingLevel) (thinkingBudget', thinkingLevel') x y h
      exact ⟨by rw [show thinkingBudget = thinkingBudget' from hb, show thinkingLevel = thinkingLevel' from hl], hend⟩
    | _ => cases htag
  | openAi reasoningEffort =>
    cases b with
    | openAi reasoningEffort' =>
      obtain ⟨rfl, hend⟩ := htext _ _ x y h
      exact ⟨rfl, hend⟩
    | _ => cases htag

theorem delimits_thinking : Delimits Eq thinkingBytes := by
  refine ((delimits_bool.comap ThinkingConfig.enabled).append
    (((delimits_optionEq delimits_effort).comap ThinkingConfig.effort).append
      (delimits_params.comap ThinkingConfig.params))).imp ?_
  rintro ⟨enabled, effort, params⟩ ⟨enabled', effort', params'⟩ ⟨henabled, heffort, hparams⟩
  simp only at henabled heffort hparams
  rw [henabled, heffort, hparams]

theorem delimits_breakpoint : Delimits Eq breakpointBytes := by
  refine ((delimits_varint.comap PromptCacheBreakpoint.messageIndex).append
    (delimits_varint.comap PromptCacheBreakpoint.blockIndex)).imp ?_
  rintro ⟨messageIndex, blockIndex⟩ ⟨messageIndex', blockIndex'⟩ ⟨hmessage, hblock⟩
  simp only at hmessage hblock
  rw [hmessage, hblock]

def directiveTag : PromptCacheDirective → Nat
  | .disabled => 0
  | .ephemeral _ => 1

def directivePayload : PromptCacheDirective → Bytes
  | .disabled => []
  | .ephemeral breakpoints => seq breakpointBytes breakpoints

theorem delimits_directive : Delimits Eq directiveBytes := by
  refine delimits_variant directiveTag directivePayload (fun directive => by cases directive <;> simp [directiveBytes, directiveTag, directivePayload])
    fun a b x y htag h => ?_
  cases a with
  | disabled =>
    cases b with
    | disabled => exact ⟨rfl, h⟩
    | ephemeral breakpoints => cases htag
  | ephemeral breakpoints =>
    cases b with
    | disabled => cases htag
    | ephemeral breakpoints' =>
      obtain ⟨rfl, hend⟩ := delimits_seqEq delimits_breakpoint _ _ x y h
      exact ⟨rfl, hend⟩

/-! ## The digest views -/

section
variable {numberText : Number → List Char} (hnumbers : NumberTexts numberText)
include hnumbers

theorem delimits_canonical : Delimits Value.Reordered fun value => str (canonicalValue numberText value) := by
  refine (delimits_str.comap (canonicalValue numberText)).imp fun v w heq => ?_
  have htext : sortedText numberText v = sortedText numberText w := String.ofList_inj.mp heq
  exact (sortedText_determines hnumbers v w [] [] stops_nil stops_nil (by rw [htext])).1

def blockTag : MessageContentBlock → Nat
  | .text _ => 0
  | .imageBase64 _ _ => 1
  | .thinking _ _ => 2
  | .toolCall _ _ _ => 3
  | .toolResult _ _ => 4

def blockPayload (numberText : Number → List Char) : MessageContentBlock → Bytes
  | .text text => str text
  | .imageBase64 mediaType data => str mediaType ++ str data
  | .thinking reasoning signature => str reasoning ++ option str signature
  | .toolCall id name arguments => str id ++ (str name ++ str (canonicalValue numberText arguments))
  | .toolResult toolCallId output => str toolCallId ++ str output

theorem delimits_block : Delimits MessageContentBlock.Reordered (blockDigest numberText) := by
  refine delimits_variant blockTag (blockPayload numberText) (fun block => by cases block <;> rfl) fun a b x y htag h => ?_
  have hpair := (delimits_str.comap Prod.fst).append (delimits_str.comap (Prod.snd : String × String → String))
  cases a with
  | text text =>
    cases b with
    | text text' =>
      obtain ⟨rfl, hend⟩ := delimits_str _ _ x y h
      exact ⟨.refl _, hend⟩
    | _ => cases htag
  | imageBase64 mediaType data =>
    cases b with
    | imageBase64 mediaType' data' =>
      obtain ⟨⟨hm, hd⟩, hend⟩ := hpair (mediaType, data) (mediaType', data') x y h
      obtain rfl : mediaType = mediaType' := hm
      obtain rfl : data = data' := hd
      exact ⟨.refl _, hend⟩
    | _ => cases htag
  | thinking reasoning signature =>
    cases b with
    | thinking reasoning' signature' =>
      obtain ⟨⟨hr, hs⟩, hend⟩ := (delimits_str.comap Prod.fst).append
        ((delimits_optionEq delimits_str).comap Prod.snd) (reasoning, signature) (reasoning', signature') x y h
      obtain rfl : reasoning = reasoning' := hr
      obtain rfl : signature = signature' := hs
      exact ⟨.refl _, hend⟩
    | _ => cases htag
  | toolCall id name arguments =>
    cases b with
    | toolCall id' name' arguments' =>
      obtain ⟨⟨hi, hn, ha⟩, hend⟩ := (delimits_str.comap Prod.fst).append
        ((delimits_str.comap fun t : String × String × Value => t.2.1).append
        ((delimits_canonical hnumbers).comap fun t : String × String × Value => t.2.2)) (id, name, arguments) (id', name', arguments') x y h
      obtain rfl : id = id' := hi
      obtain rfl : name = name' := hn
      exact ⟨.toolCall _ _ ha, hend⟩
    | _ => cases htag
  | toolResult toolCallId output =>
    cases b with
    | toolResult toolCallId' output' =>
      obtain ⟨⟨hi, ho⟩, hend⟩ := hpair (toolCallId, output) (toolCallId', output') x y h
      obtain rfl : toolCallId = toolCallId' := hi
      obtain rfl : output = output' := ho
      exact ⟨.refl _, hend⟩
    | _ => cases htag

theorem delimits_message : Delimits UnifiedMessage.Reordered (messageDigest numberText) := by
  refine ((delimits_role.comap UnifiedMessage.role).append
    (((delimits_seq (delimits_block hnumbers)).comap UnifiedMessage.content).append
      (((delimits_optionEq delimits_str).comap UnifiedMessage.name).append
        ((delimits_optionEq delimits_str).comap UnifiedMessage.toolCallId)))).imp ?_
  rintro a b ⟨hrole, hcontent, hname, hid⟩
  exact ⟨hrole, hcontent, hname, hid⟩

theorem delimits_tool : Delimits ToolDefinition.Reordered (toolDigest numberText) := by
  refine ((delimits_str.comap ToolDefinition.name).append ((delimits_str.comap ToolDefinition.description).append
    ((delimits_canonical hnumbers).comap ToolDefinition.inputSchema))).imp ?_
  rintro a b ⟨hname, hdescription, hschema⟩
  exact ⟨hname, hdescription, hschema⟩

/-- **A request can be read from the front**, up to the order of members. -/
theorem delimits_request : Delimits UnifiedRequest.Reordered (requestBytes numberText) := by
  refine ((delimits_str.comap UnifiedRequest.model).append ((delimits_provider.comap UnifiedRequest.provider).append
    (((delimits_seq (delimits_message hnumbers)).comap UnifiedRequest.messages).append
      (((delimits_optionEq delimits_f32).comap UnifiedRequest.temperature).append
        (((delimits_optionEq delimits_varint).comap UnifiedRequest.maxTokens).append
          ((delimits_bool.comap UnifiedRequest.stream).append
            (((delimits_optionEq delimits_thinking).comap UnifiedRequest.thinking).append
              (((delimits_seq (delimits_tool hnumbers)).comap UnifiedRequest.tools).append
                (delimits_directive.comap UnifiedRequest.promptCache))))))))).imp ?_
  rintro a b ⟨hmodel, hprovider, hmessages, htemperature, hmax, hstream, hthinking, htools, hcache⟩
  exact ⟨hmodel, hprovider, hmessages, htemperature, hmax, hstream, hthinking, htools, hcache⟩

end

/-! ## Reordering -/

section
variable (numberText : Number → List Char)

theorem canonicalValue_reordered {v w : Value} (h : v.Reordered w) (hv : v.DistinctKeys) :
    canonicalValue numberText v = canonicalValue numberText w := by
  unfold canonicalValue
  rw [sortedText_reordered numberText h hv]

theorem blockDigest_reordered {a b : MessageContentBlock} (h : a.Reordered b) (ha : a.DistinctKeys) :
    blockDigest numberText a = blockDigest numberText b := by
  cases h with
  | refl => rfl
  | toolCall id name hvalue => rw [blockDigest, blockDigest, canonicalValue_reordered numberText hvalue ha]

theorem seq_congr {α : Type*} {encode : α → Bytes} {r : α → α → Prop} {as bs : List α} (h : List.Forall₂ r as bs)
    (hitem : ∀ a ∈ as, ∀ b, r a b → encode a = encode b) : seq encode as = seq encode bs := by
  have hall : as.flatMap encode = bs.flatMap encode := by
    induction h with
    | nil => rfl
    | cons hab _ ih =>
      rw [List.flatMap_cons, List.flatMap_cons, hitem _ (List.mem_cons_self ..) _ hab,
        ih fun a ha => hitem a (List.mem_cons_of_mem _ ha)]
  unfold seq
  rw [h.length_eq, hall]

theorem requestBytes_reordered {a b : UnifiedRequest} (h : a.Reordered b) (ha : a.DistinctKeys) :
    requestBytes numberText a = requestBytes numberText b := by
  have hmessages : seq (messageDigest numberText) a.messages = seq (messageDigest numberText) b.messages := by
    refine seq_congr h.messages fun message hmessage message' hsame => ?_
    unfold messageDigest
    rw [hsame.role, hsame.name, hsame.toolCallId, seq_congr hsame.content fun block hblock block' hblocks =>
      blockDigest_reordered numberText hblocks (ha.messages message hmessage block hblock)]
  have htools : seq (toolDigest numberText) a.tools = seq (toolDigest numberText) b.tools := by
    refine seq_congr h.tools fun tool htool tool' hsame => ?_
    unfold toolDigest
    rw [hsame.name, hsame.description, canonicalValue_reordered numberText hsame.inputSchema (ha.tools tool htool)]
  unfold requestBytes
  rw [h.model, h.provider, hmessages, h.temperature, h.maxTokens, h.stream, h.thinking, htools, h.promptCache]

end

/-- **The digest input is canonical and injective**: two requests give the same bytes exactly if they are equal up to the
order of members. -/
theorem digest_input_canonical {numberText : Number → List Char} (hnumbers : NumberTexts numberText)
    (a b : UnifiedRequest) (ha : a.DistinctKeys) :
    requestBytes numberText a = requestBytes numberText b ↔ a.Reordered b :=
  ⟨(delimits_request hnumbers).injective, fun h => requestBytes_reordered numberText h ha⟩

/-- Integers in decimal; a float by its bits. -/
def plainText : Number → List Char
  | .posInt n => Nat.toDigits 10 n
  | .negInt n => (if n < 0 then '-' else '+') :: Nat.toDigits 10 n.natAbs
  | .float bits => 'e' :: Nat.toDigits 10 bits.toNat

theorem numberTexts_plainText : NumberTexts plainText where
  injective m n h := by
    have hdigits {a b : Nat} (h : Nat.toDigits 10 a = Nat.toDigits 10 b) : a = b := by
      rw [← @Nat.ofDigitChars_ten_toDigits a, h, Nat.ofDigitChars_ten_toDigits]
    -- a digit is none of the marks
    have hmark {a b : Nat} {c : Char} (hc : c.isDigit = false) : Nat.toDigits 10 a ≠ c :: Nat.toDigits 10 b := fun h => by
      have hmem : c ∈ Nat.toDigits 10 a := h ▸ List.mem_cons_self ..
      have := Nat.isDigit_of_mem_toDigits (by decide) (by decide) hmem
      rw [hc] at this
      cases this
    have hsign (n : Int) : (if n < 0 then '-' else '+' : Char).isDigit = false := by split_ifs <;> decide
    have hexponent (n : Int) : (if n < 0 then '-' else '+' : Char) ≠ 'e' := by split_ifs <;> decide
    cases m <;> cases n
    · rw [hdigits h]
    · exact absurd h (hmark (hsign _))
    · exact absurd h (hmark (by decide))
    · exact absurd h.symm (hmark (hsign _))
    · rename_i m n
      obtain ⟨hmarks, habs⟩ := List.cons.inj h
      have hnat := hdigits habs
      have hneg : m < 0 ↔ n < 0 := by
        by_cases hm : m < 0 <;> by_cases hn : n < 0 <;> simp [hm, hn] at hmarks ⊢
      congr 1
      omega
    · exact absurd (List.cons.inj h).1 (hexponent _)
    · exact absurd h.symm (hmark (by decide))
    · exact absurd (List.cons.inj h).1.symm (hexponent _)
    · rw [UInt64.toNat_inj.mp (hdigits (List.cons.inj h).2)]
  numeric n c hc := by
    have hdigit {m : Nat} (h : c ∈ Nat.toDigits 10 m) : isNumeric c = true := by
      unfold isNumeric
      rw [Nat.isDigit_of_mem_toDigits (by decide) (by decide) h, Bool.true_or]
    cases n with
    | posInt n => exact hdigit hc
    | negInt n =>
      rcases List.mem_cons.mp hc with rfl | h
      · split_ifs <;> decide
      · exact hdigit h
    | float bits =>
      rcases List.mem_cons.mp hc with rfl | h
      · decide
      · exact hdigit h
  nonempty n := by
    cases n with
    | posInt n => exact Nat.toDigits_ne_nil
    | negInt n => exact List.cons_ne_nil _ _
    | float bits => exact List.cons_ne_nil _ _

def asking (inputSchema : Value) : UnifiedRequest :=
  ⟨"m", .openAi, [], none, none, false, none, [⟨"run", "d", inputSchema⟩], .disabled⟩

theorem digest_input_canonical_schema :
    requestBytes plainText (asking (.object [("b", .number (.posInt 1)), ("a", .bool true)])) =
        requestBytes plainText (asking (.object [("a", .bool true), ("b", .number (.posInt 1))])) ↔
      (asking (.object [("b", .number (.posInt 1)), ("a", .bool true)])).Reordered
        (asking (.object [("a", .bool true), ("b", .number (.posInt 1))])) := by
  refine digest_input_canonical numberTexts_plainText _ _ ⟨fun _ h => (List.not_mem_nil h).elim, fun tool htool => ?_⟩
  rw [List.mem_singleton.mp htool]
  exact ⟨by decide, trivial, trivial, trivial⟩

end PromptDigest
end Cuca
