import MemoryService.Rag.Indexer

/-!
# When the embedding cache is transparent

The reference is indexing without a cache: every vector is the encoder's vector of the memory's
own text.
-/

namespace MemoryService.Rag

open Domain Foundation List

variable {c : Char} {firstEnd secondEnd : List Char} {a b m : CanonicalMemory}
  {live : List CanonicalMemory} {i : Nat} {first second : List Char}

section

variable (same : first ++ c :: firstEnd = second ++ c :: secondEnd)
include same

theorem split_at_first
    (firstFree : c ∉ first) (secondFree : c ∉ second) :
    first = second ∧ firstEnd = secondEnd := by
  induction first generalizing second with
  | nil =>
    cases second with
    | nil => exact ⟨by simp, by simpa using same⟩
    | cons d second =>
      have heads : c = d := (List.cons.inj same).1
      apply absurd _ secondFree
      simp [heads]
  | cons d first ih =>
    cases second with
    | nil =>
      have heads : d = c := (List.cons.inj same).1
      apply absurd _ firstFree
      simp [heads]
    | cons e second =>
      have heads : d = e := (List.cons.inj same).1
      have tails := (List.cons.inj same).2
      have rest :=
        ih tails
          (fun member => firstFree (mem_cons_of_mem d member))
          (fun member => secondFree (mem_cons_of_mem e member))
      exact ⟨by rw [heads, rest.1], rest.2⟩

theorem split_at_last
    (firstFree : c ∉ firstEnd) (secondFree : c ∉ secondEnd) :
    first = second ∧ firstEnd = secondEnd := by
  have reversed :
      firstEnd.reverse ++ c :: first.reverse = secondEnd.reverse ++ c :: second.reverse := by
    simpa using congrArg List.reverse same
  have parts := split_at_first reversed (by simpa using firstFree) (by simpa using secondFree)
  exact ⟨reverse_injective parts.2, reverse_injective parts.1⟩

end

theorem colon_not_mem_digest (digest : Digest) : ':' ∉ digest.text.toList := by
  intro member
  have hexadecimal := all_eq_true.mp digest.hexadecimal ':' member
  exact absurd hexadecimal (by decide)

theorem digest_text_injective {first second : Digest}
    (same : first.text = second.text) : first = second := by
  cases first
  cases second
  simpa using same

/-- The suffix of a hash that the indexer caches a memory's text under. -/
inductive Round where
  | own
  | context
  deriving DecidableEq

def Round.suffix : Round → String
  | .own => ":mem3"
  | .context => ":ctx3"

theorem suffix_length (round : Round) : round.suffix.toList.length = 5 := by
  cases round <;> decide

theorem suffix_injective {first second : Round}
    (same : first.suffix.toList = second.suffix.toList) : first = second := by
  revert same
  cases first <;> cases second <;> decide

theorem key_injective {first second : Request} {firstDigest secondDigest : Digest}
    {firstRound secondRound : Round}
    (firstHash : first.hash = firstDigest.text ++ firstRound.suffix)
    (secondHash : second.hash = secondDigest.text ++ secondRound.suffix)
    (same : first.key = second.key) :
    first.space.fingerprint = second.space.fingerprint ∧
      firstDigest = secondDigest ∧ firstRound = secondRound := by
  have chars := congrArg String.toList same
  simp only [Request.key, firstHash, secondHash, String.toList_append,
    append_assoc, append_cancel_left_eq] at chars
  simp only [← append_assoc] at chars
  obtain ⟨fronts, suffixes⟩ := append_inj' chars (by rw [suffix_length, suffix_length])
  have colon : ":".toList = [':'] := by decide
  simp only [colon, append_assoc, singleton_append] at fronts
  have parts :=
    split_at_last fronts (colon_not_mem_digest firstDigest) (colon_not_mem_digest secondDigest)
  have digests : firstDigest = secondDigest := digest_text_injective (String.toList_inj.mp parts.2)
  exact ⟨String.toList_inj.mp parts.1, digests, suffix_injective suffixes⟩

theorem bracket_not_mem_padded (width n : Nat) : ']' ∉ Instant.padded width n := by
  intro member
  rw [Instant.padded, List.leftpad] at member
  rcases mem_append.mp member with isZero | isDigit
  · exact absurd (eq_of_mem_replicate isZero) (by decide)
  · have digit := Nat.isDigit_of_mem_toDigits (by omega) (by omega) isDigit
    exact absurd digit (by decide)

theorem bracket_not_mem_date (instant : Instant) : ']' ∉ instant.dateIsoformat := by
  simp [Instant.dateIsoformat, bracket_not_mem_padded]

theorem memoryIndexText_eq_iff :
    memoryIndexText a = memoryIndexText b ↔
      a.temporal.observedAt.dateIsoformat = b.temporal.observedAt.dateIsoformat ∧
        indexLine a = indexLine b := by
  constructor
  · intro same
    have chars := congrArg String.toList same
    have bracket : "]".toList = [']'] := by decide
    simp only [memoryIndexText, String.toList_append, append_assoc,
      append_cancel_left_eq, bracket, singleton_append,
      String.toList_ofList] at chars
    have parts :=
      split_at_first chars (bracket_not_mem_date a.temporal.observedAt)
        (bracket_not_mem_date b.temporal.observedAt)
    exact ⟨parts.1, String.toList_inj.mp parts.2⟩
  · intro parts
    rw [memoryIndexText, memoryIndexText, parts.1, parts.2]

def uncached (spaces : DenseSpaces) (m : CanonicalMemory) : SearchRecord where
  recordId := m.memoryId
  dense := spaces.spaces.map fun space => (space.name, space.embed (memoryIndexText m))
  denseContext := spaces.spaces.map fun space => (space.name, space.embed (memoryContextText m))

def indexAll (contentHash : String → Digest) (spaces : DenseSpaces) :
    List (IndexWeather × List CanonicalMemory) → Cache →
      List (CanonicalMemory × SearchRecord) × Cache
  | [], cache => ([], cache)
  | (weather, memories) :: later, cache =>
    let (written, cache) := indexMemories contentHash spaces weather cache memories
    let (others, cache) := indexAll contentHash spaces later cache
    (written ++ others, cache)

/-- Every record is what it would be without a cache. -/
def Transparent (spaces : DenseSpaces)
    (written : List (CanonicalMemory × SearchRecord)) : Prop :=
  ∀ entry ∈ written, entry.2 = uncached spaces entry.1
deriving Decidable

structure CollisionFree (contentHash : String → Digest) (memories : Set CanonicalMemory) :
    Prop where
  day : ∀ a ∈ memories, ∀ b ∈ memories, indexed a → indexed b →
    a.normalizedHash = b.normalizedHash →
      a.temporal.observedAt.dateIsoformat = b.temporal.observedAt.dateIsoformat
  line : ∀ a ∈ memories, ∀ b ∈ memories, indexed a → indexed b →
    a.normalizedHash = b.normalizedHash → indexLine a = indexLine b
  context : ∀ a ∈ memories, ∀ b ∈ memories, indexed a → indexed b →
    memoryIndexText a ≠ memoryContextText a →
    memoryIndexText b ≠ memoryContextText b →
      contentHash (memoryContextText a) = contentHash (memoryContextText b) →
        memoryContextText a = memoryContextText b

section

variable {contentHash : String → Digest} {spaces : DenseSpaces} {M : Set CanonicalMemory}

/-- The texts that indexing the memories of `M` embeds, with their hashes. -/
inductive Asked (contentHash : String → Digest) (spaces : DenseSpaces)
    (M : Set CanonicalMemory) : Request → Prop where
  | own (space : DenseSpace) (m : CanonicalMemory) :
      space ∈ spaces.spaces → m ∈ M → indexed m →
        Asked contentHash spaces M ⟨space, memoryIndexText m, ownHash m⟩
  | context (space : DenseSpace) (m : CanonicalMemory) :
      space ∈ spaces.spaces → m ∈ M → indexed m →
      memoryIndexText m ≠ memoryContextText m →
        Asked contentHash spaces M
          ⟨space, memoryContextText m, contextHash contentHash m⟩

theorem determines_of_collisionFree (spaces : DenseSpaces) (free : CollisionFree contentHash M) :
    ReadThrough.Determines Request.key Request.vector
      {request | Asked contentHash spaces M request} := by
  intro first firstAsked second secondAsked sameKey
  cases firstAsked with
  | own firstSpace a firstMember aMember aIndexed =>
    cases secondAsked with
    | own secondSpace b secondMember bMember bIndexed =>
      have parts :=
        @key_injective _ _ a.normalizedHash b.normalizedHash .own .own
          (by simp [ownHash, Round.suffix]) (by simp [ownHash, Round.suffix]) sameKey
      have encoders := spaces.encoders _ firstMember _ secondMember parts.1
      have texts : memoryIndexText a = memoryIndexText b := by
        apply memoryIndexText_eq_iff.mpr
        constructor
        · exact free.day a aMember b bMember aIndexed bIndexed parts.2.1
        · exact free.line a aMember b bMember aIndexed bIndexed parts.2.1
      simp only [Request.vector, encoders, texts]
    | context secondSpace b secondMember bMember bIndexed bDiffers =>
      have parts :=
        @key_injective _ _ a.normalizedHash (contentHash (memoryContextText b))
          .own .context (by simp [ownHash, Round.suffix])
          (by simp [contextHash, Round.suffix]) sameKey
      cases parts.2.2
  | context firstSpace a firstMember aMember aIndexed aDiffers =>
    cases secondAsked with
    | own secondSpace b secondMember bMember bIndexed =>
      have parts :=
        @key_injective _ _ (contentHash (memoryContextText a)) b.normalizedHash
          .context .own (by simp [contextHash, Round.suffix])
          (by simp [ownHash, Round.suffix]) sameKey
      cases parts.2.2
    | context secondSpace b secondMember bMember bIndexed bDiffers =>
      have parts :=
        @key_injective _ _ (contentHash (memoryContextText a))
          (contentHash (memoryContextText b)) .context .context
          (by simp [contextHash, Round.suffix])
          (by simp [contextHash, Round.suffix]) sameKey
      have encoders := spaces.encoders _ firstMember _ secondMember parts.1
      have texts : memoryContextText a = memoryContextText b :=
        free.context a aMember b bMember aIndexed bIndexed aDiffers bDiffers parts.2.1
      simp only [Request.vector, encoders, texts]

theorem zipWith_requests (space : DenseSpace) (text hash : CanonicalMemory → String)
    (live : List CanonicalMemory) :
    List.zipWith (fun text hash => (⟨space, text, hash⟩ : Request))
        (live.map text) (live.map hash) =
      live.map fun m => ⟨space, text m, hash m⟩ := by
  induction live with
  | nil => simp
  | cons m live ih => simp [ih]

theorem embedCached_values {items : Set Request}
    (determines : ReadThrough.Determines Request.key Request.vector items)
    (weather : String → Weather) (text hash : CanonicalMemory → String)
    (live : List CanonicalMemory) :
    ∀ (members : List DenseSpace) (cache : Cache),
      (∀ space ∈ members, ∀ m ∈ live, ⟨space, text m, hash m⟩ ∈ items) →
      ReadThrough.Agrees packing Request.key Request.vector items cache →
        let result := embedCached weather (live.map text) (live.map hash) members cache
        result.1 = members.map (fun space => (space.name, live.map fun m => space.embed (text m))) ∧
          ReadThrough.Agrees packing Request.key Request.vector items result.2 := by
  intro members
  induction members with
  | nil =>
    intro cache asked agrees
    exact ⟨by simp [embedCached], agrees⟩
  | cons space members ih =>
    intro cache asked agrees
    have requests :
        ∀ item ∈ live.map (fun m => (⟨space, text m, hash m⟩ : Request)), item ∈ items := by
      intro item member
      obtain ⟨m, isLive, rfl⟩ := mem_map.mp member
      exact asked space mem_cons_self m isLive
    have values :
        (embedSpace (weather space.name) cache space (live.map text)
          (live.map hash)).1 = live.map fun m => space.embed (text m) := by
      rw [embedSpace, zipWith_requests, ReadThrough.call_values determines agrees requests]
      simp [Request.vector]
    have agreesAfter :
        ReadThrough.Agrees packing Request.key Request.vector items
          (embedSpace (weather space.name) cache space (live.map text) (live.map hash)).2 := by
      rw [embedSpace, zipWith_requests]
      exact ReadThrough.call_agrees agrees requests
    have rest := ih _ (fun other member => asked other (mem_cons_of_mem space member)) agreesAfter
    constructor
    · simp [embedCached, values, rest.1]
    · exact rest.2

theorem vectorsAt_map {members : List DenseSpace} (text : CanonicalMemory → String)
    (found : live[i]? = some m) :
    vectorsAt (members.map fun space => (space.name, live.map fun m => space.embed (text m))) i =
      members.map fun space => (space.name, space.embed (text m)) := by
  simp [vectorsAt, found]

theorem filter_getElem? {passes : CanonicalMemory → Bool}
    (found : live[i]? = some m) (isPassed : passes m = true) :
    (live.filter passes)[((live.take i).filter passes).length]? = some m := by
  induction live generalizing i with
  | nil => simp at found
  | cons head live ih =>
    cases i with
    | zero =>
      have isHead : head = m := by simpa using found
      simp [isHead, isPassed]
    | succ i =>
      have inTail : live[i]? = some m := by simpa using found
      have place := ih inTail
      cases passed : passes head with
      | false => simpa [passed] using place
      | true => simpa [passed] using place

theorem indexMemories_transparent
    (free : CollisionFree contentHash M) (weather : IndexWeather) {cache : Cache}
    {memories : List CanonicalMemory} (members : ∀ m ∈ memories, m ∈ M)
    (agrees :
      ReadThrough.Agrees packing Request.key Request.vector
        {request | Asked contentHash spaces M request} cache) :
    Transparent spaces (indexMemories contentHash spaces weather cache memories).1 ∧
      ReadThrough.Agrees packing Request.key Request.vector
        {request | Asked contentHash spaces M request}
        (indexMemories contentHash spaces weather cache memories).2 := by
  have determines := determines_of_collisionFree spaces free
  have own :=
    embedCached_values determines weather.own memoryIndexText ownHash
      (memories.filter indexed) spaces.spaces cache
      (fun space isSpace m isLive =>
        .own space m isSpace (members m (mem_filter.mp isLive).1) (mem_filter.mp isLive).2)
      agrees
  have context :=
    embedCached_values determines weather.context memoryContextText
      (contextHash contentHash)
      ((memories.filter indexed).filter fun m => memoryIndexText m ≠ memoryContextText m)
      spaces.spaces _
      (fun space isSpace m isDiffering => by
        obtain ⟨isLive, differs⟩ := mem_filter.mp isDiffering
        obtain ⟨member, isIndexed⟩ := mem_filter.mp isLive
        exact .context space m isSpace (members m member) isIndexed (by simpa using differs))
      own.2
  constructor
  · intro entry written
    rw [indexMemories] at written
    obtain ⟨⟨m, i⟩, place, rfl⟩ := mem_map.mp written
    have found := mk_mem_zipIdx_iff_getElem?.mp place
    simp only [own.1, context.1, vectorsAt_map memoryIndexText found, uncached]
    congr 1
    split
    case isTrue differs =>
      apply vectorsAt_map memoryContextText
      exact filter_getElem? found (by simpa using differs)
    case isFalse same =>
      rw [not_not.mp same]
  · exact context.2

theorem indexAll_transparent (free : CollisionFree contentHash M) :
    ∀ (calls : List (IndexWeather × List CanonicalMemory)) (cache : Cache),
      (∀ call ∈ calls, ∀ m ∈ call.2, m ∈ M) →
      ReadThrough.Agrees packing Request.key Request.vector
        {request | Asked contentHash spaces M request} cache →
        Transparent spaces (indexAll contentHash spaces calls cache).1 := by
  intro calls
  induction calls with
  | nil =>
    intro cache members agrees entry written
    simp [indexAll] at written
  | cons call calls ih =>
    intro cache members agrees entry written
    have first := indexMemories_transparent free call.1 (members call mem_cons_self) agrees
    rcases mem_append.mp written with isFirst | isLater
    · exact first.1 entry isFirst
    · apply ih _ _ first.2 entry isLater
      intro other isOther
      exact members other (mem_cons_of_mem call isOther)

def onlySpace (text : String) : DenseSpaces where
  spaces := [⟨"dense", "fingerprint", fun t => if t = text then [1] else [0]⟩]
  nonempty := by simp
  names := by simp
  encoders := by simp

/-- Every read answers and the write lands. -/
def fair : Weather := ⟨fun _ => true, true⟩

/-- No read answers and the write is lost. -/
def down : Weather := ⟨fun _ => false, false⟩

theorem own_collision_served (aIndexed : indexed a) (bIndexed : indexed b)
    (sameHash : a.normalizedHash = b.normalizedHash)
    (differ : memoryIndexText a ≠ memoryIndexText b) :
    ¬Transparent (onlySpace (memoryIndexText a))
      (indexAll contentHash (onlySpace (memoryIndexText a))
        [(⟨fun _ => fair, fun _ => down⟩, [a]), (⟨fun _ => fair, fun _ => down⟩, [b])] []).1 := by
  intro transparent
  have second :
      ∃ context,
        (b, ⟨b.memoryId, [("dense", [1])], context⟩) ∈
          (indexAll contentHash (onlySpace (memoryIndexText a))
            [(⟨fun _ => fair, fun _ => down⟩, [a]),
              (⟨fun _ => fair, fun _ => down⟩, [b])] []).1 := by
    simp [indexAll, indexMemories, embedCached, embedSpace, ReadThrough.call,
      ReadThrough.missed, ReadThrough.hit, ReadThrough.read, onlySpace, fair, down,
      aIndexed, bIndexed, Request.key, Request.vector, ownHash, sameHash,
      vectorsAt, packing, decode_encode]
  obtain ⟨context, written⟩ := second
  have dense := congrArg SearchRecord.dense (transparent _ written)
  simp [uncached, onlySpace, Ne.symm differ] at dense

theorem context_collision_served (aIndexed : indexed a) (bIndexed : indexed b)
    (aDiffers : memoryIndexText a ≠ memoryContextText a)
    (bDiffers : memoryIndexText b ≠ memoryContextText b)
    (sameHash : contentHash (memoryContextText a) = contentHash (memoryContextText b))
    (differ : memoryContextText a ≠ memoryContextText b) :
    ¬Transparent (onlySpace (memoryContextText a))
      (indexAll contentHash (onlySpace (memoryContextText a))
        [(⟨fun _ => down, fun _ => fair⟩, [a]), (⟨fun _ => down, fun _ => fair⟩, [b])] []).1 := by
  intro transparent
  have second :
      ∃ own,
        (b, ⟨b.memoryId, own, [("dense", [1])]⟩) ∈
          (indexAll contentHash (onlySpace (memoryContextText a))
            [(⟨fun _ => down, fun _ => fair⟩, [a]),
              (⟨fun _ => down, fun _ => fair⟩, [b])] []).1 := by
    simp [indexAll, indexMemories, embedCached, embedSpace, ReadThrough.call,
      ReadThrough.missed, ReadThrough.hit, ReadThrough.read, onlySpace, fair, down,
      aIndexed, bIndexed, aDiffers, bDiffers, Request.key, Request.vector, contextHash, sameHash,
      vectorsAt, packing, decode_encode]
  obtain ⟨own, written⟩ := second
  have dense := congrArg SearchRecord.denseContext (transparent _ written)
  simp [uncached, onlySpace, Ne.symm differ] at dense

end

/-- The cache is transparent in all runs over a set of memories, with any encoders, hits
and misses, exactly when no two texts of the set share what they are cached under. -/
theorem index_transparent_iff (contentHash : String → Digest) (M : Set CanonicalMemory) :
    (∀ (spaces : DenseSpaces) (calls : List (IndexWeather × List CanonicalMemory)),
      (∀ call ∈ calls, ∀ m ∈ call.2, m ∈ M) →
        Transparent spaces (indexAll contentHash spaces calls []).1) ↔
      CollisionFree contentHash M := by
  constructor
  · intro transparent
    have texts :
        ∀ a ∈ M, ∀ b ∈ M, indexed a → indexed b →
          a.normalizedHash = b.normalizedHash → memoryIndexText a = memoryIndexText b := by
      intro a aMember b bMember aIndexed bIndexed sameHash
      apply Classical.byContradiction
      intro differ
      apply own_collision_served aIndexed bIndexed sameHash differ
      apply transparent
      simp [aMember, bMember]
    constructor
    case day =>
      intro a aMember b bMember aIndexed bIndexed sameHash
      have same := texts a aMember b bMember aIndexed bIndexed sameHash
      exact (memoryIndexText_eq_iff.mp same).1
    case line =>
      intro a aMember b bMember aIndexed bIndexed sameHash
      have same := texts a aMember b bMember aIndexed bIndexed sameHash
      exact (memoryIndexText_eq_iff.mp same).2
    case context =>
      intro a aMember b bMember aIndexed bIndexed aDiffers bDiffers sameHash
      apply Classical.byContradiction
      intro differ
      apply context_collision_served aIndexed bIndexed aDiffers bDiffers sameHash differ
      apply transparent
      simp [aMember, bMember]
  · intro free spaces calls members
    exact indexAll_transparent free calls [] members ReadThrough.agrees_nil

def saidAt (memoryId : String) (day : Instant) : CanonicalMemory where
  memoryId := memoryId
  tenantId := "ten"
  memoryType := .preference
  content := "likes tea"
  normalizedHash := ⟨"0a", rfl⟩
  temporal := { observedAt := day }
  evidence := [⟨.message, "msg_1"⟩]
  updatedAt := day

/-- The same words said on the next day are served the first day's vector. -/
theorem next_day_is_served_first_day :
    ¬∀ (contentHash : String → Digest) (spaces : DenseSpaces)
        (calls : List (IndexWeather × List CanonicalMemory)),
      Transparent spaces (indexAll contentHash spaces calls []).1 := by
  intro always
  have transparent :=
    always (fun _ => ⟨"0b", rfl⟩)
      (onlySpace (memoryIndexText (saidAt "mem_1" ⟨63839664000000000⟩)))
      [(⟨fun _ => fair, fun _ => down⟩, [saidAt "mem_1" ⟨63839664000000000⟩]),
        (⟨fun _ => fair, fun _ => down⟩, [saidAt "mem_2" ⟨63839750400000000⟩])]
  revert transparent
  decide +kernel

end MemoryService.Rag
