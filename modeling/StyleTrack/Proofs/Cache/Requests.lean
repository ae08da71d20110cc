/-
Stores as maps. Whatever is asked of a store, one request after the other, a load answers with the entry of the
latest save under its key that succeeded, unless a delete came after it. That holds of the store in memory, which
accepts every entry, and of the store in a directory that is new, which accepts the entries that can be written
down. Apart from the saves that fail, the two give the same answers.
-/
import StyleTrack.Proofs.Cache.Directory

namespace StyleTrack

namespace Store

/-! ## Requests -/

/-- What can be asked about a key. -/
inductive Action where
  | load
  | save (entry : CacheEntry)
  | delete

/-- What is asked about a key at a time. -/
structure Request where
  now : String
  key : CacheKey
  action : Action

/-- What a store answers. -/
inductive Reply where
  | found (result : Except StoreError (Option CacheEntry))
  | done (result : Except StoreError Unit)

/-- A request and what was answered to it. -/
structure Exchange where
  request : Request
  reply : Reply

variable {σ τ : Type}

/-- Answers a request. -/
def serve (store : String → Store σ) (r : Request) (s : σ) : Reply × σ :=
  match r.action with
  | .load => (.found ((store r.now).load r.key s), s)
  | .save entry =>
    let (result, s) := (store r.now).save r.key entry s
    (.done result, s)
  | .delete =>
    let (result, s) := (store r.now).delete r.key s
    (.done result, s)

/-- Answers requests one after the other. -/
def transcript (store : String → Store σ) : List Request → σ → List Exchange
  | [], _ => []
  | r :: rest, s =>
    let (reply, s) := serve store r s
    ⟨r, reply⟩ :: transcript store rest s

/-! ## What is to be answered -/

/-- What an exchange makes of the entry under a key, if it changes it. -/
def Exchange.change? (key : CacheKey) (e : Exchange) : Option (Option CacheEntry) :=
  if e.request.key = key then
    match e.request.action, e.reply with
    | .save entry, .done (.ok ()) => some (some entry)
    | .delete, .done (.ok ()) => some none
    | _, _ => none
  else none

/-- The entry under a key after some exchanges: that of the latest save that succeeded, unless a delete came after
it. -/
def latest (key : CacheKey) (past : List Exchange) : Option CacheEntry :=
  (past.reverse.findSome? (·.change? key)).getD none

theorem latest_concat (key : CacheKey) (past : List Exchange) (e : Exchange) :
    latest key (past ++ [e]) = (e.change? key).getD (latest key past) := by
  rw [latest, List.reverse_append, List.reverse_singleton, List.singleton_append, List.findSome?_cons]
  cases e.change? key <;> rfl

/-- Whether an answer is that of a map which accepts some entries only, where something is known under the key. -/
def Reply.IsRight (Accepts : CacheEntry → Prop) (r : Request) (known : Option CacheEntry) (reply : Reply) : Prop :=
  match r.action with
  | .load => reply = .found (.ok known)
  | .save entry => Accepts entry ∧ reply = .done (.ok ()) ∨
      ¬ Accepts entry ∧ ∃ fault, reply = .done (.error (.serialization fault))
  | .delete => reply = .done (.ok ())

/-- Whether every request is answered as a map does, given what was asked and answered before. -/
def AnswersAsMap (Accepts : CacheEntry → Prop) (history : List Exchange) : Prop :=
  ∀ past e rest, history = past ++ e :: rest → e.reply.IsRight Accepts e.request (latest e.request.key past)

/-! ## Stores that are maps -/

/-- Whether a store, which may go by the time, is a map from keys to entries in states of some kind, as far as it
accepts the entries. -/
structure IsMap (store : String → Store σ) (contents : σ → CacheKey → Option CacheEntry) (Good : σ → Prop)
    (Fine : String → CacheEntry → Prop) (Accepts : CacheEntry → Prop) : Prop where
  load : ∀ now key s, key.OfRoot → Good s → (store now).load key s = .ok (contents s key)
  save : ∀ now key entry s, key.OfRoot → Good s → Fine now entry → Accepts entry →
    ∃ s', (store now).save key entry s = (.ok (), s') ∧ Good s' ∧ ∀ other, other.OfRoot → other.Apart key →
      contents s' other = if key = other then some entry else contents s other
  refuse : ∀ now key entry s, key.OfRoot → Good s → Fine now entry → ¬ Accepts entry →
    ∃ fault s', (store now).save key entry s = (.error (.serialization fault), s') ∧ Good s' ∧
      ∀ other, other.OfRoot → contents s' other = contents s other
  delete : ∀ now key s, key.OfRoot → Good s →
    ∃ s', (store now).delete key s = (.ok (), s') ∧ Good s' ∧ ∀ other, other.OfRoot → other.Apart key →
      contents s' other = if key = other then none else contents s other

/-- Whether a request is one that a store is a map for. -/
def Request.IsFine (Fine : String → CacheEntry → Prop) (r : Request) : Prop :=
  match r.action with
  | .save entry => Fine r.now entry
  | _ => True

/-- Whether a request is one that a map does not refuse. -/
def Request.IsAccepted (Accepts : CacheEntry → Prop) (r : Request) : Prop :=
  match r.action with
  | .save entry => Accepts entry
  | _ => True

instance {Accepts : CacheEntry → Prop} [DecidablePred Accepts] (r : Request) : Decidable (r.IsAccepted Accepts) := by
  unfold Request.IsAccepted
  split <;> infer_instance

/-- Whether the keys of some requests are those of roots, and no two of them have the same digest. -/
def AreApart (requests : List Request) : Prop :=
  ∀ r ∈ requests, r.key.OfRoot ∧ ∀ r' ∈ requests, r.key.Apart r'.key

theorem AreApart.tail {r : Request} {requests : List Request} (h : AreApart (r :: requests)) : AreApart requests := by
  intro r' hr'
  obtain ⟨hroot, hapart⟩ := h r' (List.mem_cons_of_mem _ hr')
  exact ⟨hroot, fun r'' hr'' => hapart r'' (List.mem_cons_of_mem _ hr'')⟩

section Maps

variable {store : String → Store σ} {contents : σ → CacheKey → Option CacheEntry} {Good : σ → Prop}
  {Fine : String → CacheEntry → Prop} {Accepts : CacheEntry → Prop} {s : σ} {r : Request} {requests : List Request}

/-- One request: the answer is that of a map, and says what the store contains afterwards. -/
theorem IsMap.serve (h : IsMap store contents Good Fine Accepts) (hkey : r.key.OfRoot) (hgood : Good s)
    (hfine : r.IsFine Fine) :
    (serve store r s).1.IsRight Accepts r (contents s r.key) ∧ Good (serve store r s).2 ∧
      ∀ other, other.OfRoot → other.Apart r.key → contents (serve store r s).2 other =
        (Exchange.change? other ⟨r, (serve store r s).1⟩).getD (contents s other) := by
  obtain ⟨now, key, action⟩ := r
  cases action with
  | load =>
    refine ⟨congrArg Reply.found (h.load now key s hkey hgood), hgood, fun other _ _ => ?_⟩
    simp [Exchange.change?, Store.serve]
  | save entry =>
    by_cases haccepts : Accepts entry
    · obtain ⟨s', hsave, hgood', hcontents⟩ := h.save now key entry s hkey hgood hfine haccepts
      simp only [Store.serve, hsave]
      refine ⟨.inl ⟨haccepts, rfl⟩, hgood', fun other hroot hapart => ?_⟩
      rw [hcontents other hroot hapart, Exchange.change?]
      split_ifs <;> rfl
    · obtain ⟨fault, s', hsave, hgood', hcontents⟩ := h.refuse now key entry s hkey hgood hfine haccepts
      simp only [Store.serve, hsave]
      refine ⟨.inr ⟨haccepts, fault, rfl⟩, hgood', fun other hroot _ => ?_⟩
      simp [hcontents other hroot, Exchange.change?]
  | delete =>
    obtain ⟨s', hdelete, hgood', hcontents⟩ := h.delete now key s hkey hgood
    simp only [Store.serve, hdelete]
    refine ⟨rfl, hgood', fun other hroot hapart => ?_⟩
    rw [hcontents other hroot hapart, Exchange.change?]
    split_ifs <;> rfl

/-- What the store contains is what the answers so far say, and stays so with every answer. -/
theorem IsMap.isRight_of_transcript (h : IsMap store contents Good Fine Accepts) (hapart : AreApart requests)
    (hfine : ∀ r ∈ requests, r.IsFine Fine) (hgood : Good s) {past : List Exchange}
    (hlatest : ∀ r ∈ requests, contents s r.key = latest r.key past) {before rest : List Exchange} {e : Exchange}
    (hhistory : transcript store requests s = before ++ e :: rest) :
    e.reply.IsRight Accepts e.request (latest e.request.key (past ++ before)) := by
  induction requests generalizing s past before with
  | nil => simp [transcript] at hhistory
  | cons r requests ih =>
    obtain ⟨hroot, -⟩ := hapart r List.mem_cons_self
    obtain ⟨hright, hgood', hcontents⟩ := h.serve hroot hgood (hfine r List.mem_cons_self)
    cases before with
    | nil =>
      rw [hlatest r List.mem_cons_self] at hright
      rw [List.append_nil, ← (List.cons.inj hhistory).1]
      exact hright
    | cons e' before =>
      obtain ⟨rfl, hrest⟩ := List.cons.inj hhistory
      have hlatest' : ∀ r' ∈ requests, contents (Store.serve store r s).2 r'.key =
          latest r'.key (past ++ [⟨r, (Store.serve store r s).1⟩]) := by
        intro r' hr'
        obtain ⟨hroot', hapart'⟩ := hapart r' (List.mem_cons_of_mem _ hr')
        rw [hcontents r'.key hroot' (hapart' r List.mem_cons_self), latest_concat,
          hlatest r' (List.mem_cons_of_mem _ hr')]
      have hlater := ih hapart.tail (fun r' hr' => hfine r' (List.mem_cons_of_mem _ hr')) hgood' hlatest' hrest
      rwa [List.append_assoc] at hlater

theorem IsMap.answersAsMap (h : IsMap store contents Good Fine Accepts) (hapart : AreApart requests)
    (hfine : ∀ r ∈ requests, r.IsFine Fine) (hgood : Good s) (hnone : ∀ key, key.OfRoot → contents s key = none) :
    AnswersAsMap Accepts (transcript store requests s) :=
  fun _ _ _ hhistory => @IsMap.isRight_of_transcript _ _ _ _ _ _ _ _ h hapart hfine hgood []
    (fun r hr => hnone r.key (hapart r hr).1) _ _ _ hhistory

/-- A map that accepts all has the same answer to a request that is not refused. -/
theorem Reply.IsRight.eq {known : Option CacheEntry} {reply reply' : Reply} (h : reply.IsRight Accepts r known)
    (h' : reply'.IsRight (fun _ => True) r known) (haccepted : r.IsAccepted Accepts) : reply = reply' := by
  obtain ⟨now, key, action⟩ := r
  cases action with
  | load => exact h.trans h'.symm
  | delete => exact h.trans h'.symm
  | save entry =>
    rcases h with ⟨-, hdone⟩ | ⟨hrefused, -⟩
    · rcases h' with ⟨-, hdone'⟩ | ⟨hrefused', -⟩
      · rw [hdone, hdone']
      · exact absurd trivial hrefused'
    · exact absurd haccepted hrefused

/-- A refusal changes nothing. -/
theorem Reply.IsRight.change?_eq_none {known : Option CacheEntry} {reply : Reply} (h : reply.IsRight Accepts r known)
    (hrefused : ¬ r.IsAccepted Accepts) (key : CacheKey) : Exchange.change? key ⟨r, reply⟩ = none := by
  obtain ⟨now, key', action⟩ := r
  cases action with
  | load => exact absurd trivial hrefused
  | delete => exact absurd trivial hrefused
  | save entry =>
    rcases h with ⟨haccepts, -⟩ | ⟨-, fault, rfl⟩
    · exact absurd haccepts hrefused
    · simp [Exchange.change?]

/-- Without the requests that are refused, a map has the answers of one that accepts all. -/
theorem IsMap.transcript_filter [DecidablePred Accepts] (h : IsMap store contents Good Fine Accepts)
    {store' : String → Store τ} {contents' : τ → CacheKey → Option CacheEntry} {Good' : τ → Prop}
    (h' : IsMap store' contents' Good' Fine fun _ => True) (hapart : AreApart requests)
    (hfine : ∀ r ∈ requests, r.IsFine Fine) (hgood : Good s) {t : τ} (hgood' : Good' t)
    (hsame : ∀ r ∈ requests, contents s r.key = contents' t r.key) :
    (transcript store requests s).filter (fun e => e.request.IsAccepted Accepts) =
      transcript store' (requests.filter fun r => r.IsAccepted Accepts) t := by
  induction requests generalizing s t with
  | nil => rfl
  | cons r requests ih =>
    obtain ⟨hroot, -⟩ := hapart r List.mem_cons_self
    have hmore : ∀ r' ∈ requests, r'.key.OfRoot ∧ r'.key.Apart r.key ∧ contents s r'.key = contents' t r'.key := by
      intro r' hr'
      obtain ⟨hroot', hapart'⟩ := hapart r' (List.mem_cons_of_mem _ hr')
      exact ⟨hroot', hapart' r List.mem_cons_self, hsame r' (List.mem_cons_of_mem _ hr')⟩
    have hfine' : ∀ r' ∈ requests, r'.IsFine Fine := fun r' hr' => hfine r' (List.mem_cons_of_mem _ hr')
    obtain ⟨hright, hgoodNext, hcontents⟩ := h.serve hroot hgood (hfine r List.mem_cons_self)
    rw [transcript]
    by_cases haccepted : r.IsAccepted Accepts
    · obtain ⟨hright', hgoodNext', hcontents'⟩ := h'.serve hroot hgood' (hfine r List.mem_cons_self)
      rw [hsame r List.mem_cons_self] at hright
      have hreply := hright.eq hright' haccepted
      rw [List.filter_cons_of_pos (by simpa using haccepted), List.filter_cons_of_pos (by simpa using haccepted),
        transcript, hreply]
      refine congrArg _ (ih hapart.tail hfine' hgoodNext hgoodNext' fun r' hr' => ?_)
      obtain ⟨hroot', hapart', hsame'⟩ := hmore r' hr'
      have hnext := hcontents r'.key hroot' hapart'
      rw [hreply, hsame'] at hnext
      exact hnext.trans (hcontents' r'.key hroot' hapart').symm
    · -- a refusal drops out of the answers on the left and is not asked on the right
      rw [List.filter_cons_of_neg (by simpa using haccepted), List.filter_cons_of_neg (by simpa using haccepted)]
      refine ih hapart.tail hfine' hgoodNext hgood' fun r' hr' => ?_
      obtain ⟨hroot', hapart', hsame'⟩ := hmore r' hr'
      rw [hcontents r'.key hroot' hapart', hright.change?_eq_none haccepted, hsame']
      rfl

end Maps

end Store

/-! ## The two stores -/

theorem MemoryStore.isMap {Fine : String → CacheEntry → Prop} :
    Store.IsMap (fun _ => MemoryStore.store) (fun m key => m.get? key.digest) (fun _ => True) Fine fun _ => True where
  load _ _ _ _ _ := rfl
  refuse _ _ _ _ _ _ _ hrefused := absurd trivial hrefused
  save _ key entry m _ _ _ _ := by
    refine ⟨_, rfl, trivial, fun other _ hapart => ?_⟩
    rw [SortedMap.get?_insert]
    exact if_congr ((compare_digest_eq_iff hapart).trans eq_comm) rfl rfl
  delete _ key m _ _ := by
    refine ⟨_, rfl, trivial, fun other _ hapart => ?_⟩
    rw [SortedMap.get?_erase]
    exact if_congr ((compare_digest_eq_iff hapart).trans eq_comm) rfl rfl

instance (e : Evidence) : Decidable e.Fits := by
  unfold Evidence.Fits
  split <;> infer_instance

instance : DecidablePred CacheEntry.Writable := fun entry =>
  decidable_of_iff ((entry.root.toString?.isSome ∧ ∀ d ∈ entry.dependencies.entries, d.1.toString?.isSome) ∧
      entry.evidence.Fits ∧ ∀ d ∈ entry.dependencies.entries, d.2.Fits)
    ⟨fun h => ⟨h.1.1, h.1.2, h.2⟩, fun h => ⟨⟨h.root, h.dependencies⟩, h.fits⟩⟩

namespace DirectoryStore

/-- Whether an entry that is saved at a time has its ranges, and the time is a time stamp. -/
def Fine (now : String) (entry : CacheEntry) : Prop :=
  entry.IsProper ∧ Text.Timestamp.isStamp now.toList = true

/-- The entry that a load finds. -/
def contents (dir : Path) (d : Disk) (key : CacheKey) : Option CacheEntry := (load dir key d).toOption.getD none

/-- Whether a store can work in a directory that is really there or can be, and has no documents there but its own. -/
structure IsSound (dir : Path) (d : Disk) : Prop where
  works : Works dir d
  ne_nil : dir.bytes ≠ []
  load_ok : ∀ key, key.OfRoot → ∃ found, load dir key d = .ok found

variable {dir : Path} {d d' : Disk} {key other : CacheKey}

theorem contents_congr (hworks : Works dir d) (hworks' : Works dir d') (hkey : key.OfRoot)
    (h : documentAt dir key d' = documentAt dir key d) : contents dir d' key = contents dir d key := by
  rw [contents, contents, load_eq hworks' hkey, load_eq hworks hkey, h]

theorem contents_of_answer (hworks : Works dir d) (hkey : key.OfRoot) {found : Option CacheEntry}
    (h : answer dir key (documentAt dir key d) = .ok found) : contents dir d key = found := by
  rw [contents, load_eq hworks hkey, h]
  rfl

theorem IsSound.after (h : IsSound dir d) (hworks : Works dir d')
    (hanswers : ∀ other, other.OfRoot → documentAt dir other d' = documentAt dir other d ∨
      ∃ found, answer dir other (documentAt dir other d') = .ok found) : IsSound dir d' := by
  refine ⟨hworks, h.ne_nil, fun other hother => ?_⟩
  rw [load_eq hworks hother]
  rcases hanswers other hother with hsame | hfound
  · rw [hsame, ← load_eq h.works hother]
    exact h.load_ok other hother
  · exact hfound

/-- What is found after the document of one key changed. -/
theorem contents_after (hworks : Works dir d) (hworks' : Works dir d') {found : Option CacheEntry}
    (hown : answer dir key (documentAt dir key d') = .ok found)
    (hrest : ∀ other, other.OfRoot → key.digest ≠ other.digest → documentAt dir other d' = documentAt dir other d)
    (hother : other.OfRoot) (hapart : other.Apart key) :
    contents dir d' other = if key = other then found else contents dir d other := by
  by_cases hsame : key = other
  · subst hsame
    rw [if_pos rfl]
    exact contents_of_answer hworks' hother hown
  · rw [if_neg hsame]
    exact contents_congr hworks hworks' hother (hrest other hother fun heq => hsame (hapart heq.symm).symm)

theorem isMap (dir : Path) :
    Store.IsMap (store dir) (contents dir) (IsSound dir) Fine CacheEntry.Writable where
  load now key d hkey hsound := by
    obtain ⟨found, hfound⟩ := hsound.load_ok key hkey
    show load dir key d = .ok (contents dir d key)
    rw [contents, hfound]
    rfl
  save now key entry d hkey hsound hfine hwritable := by
    obtain ⟨d', hsave, hworks, hdocuments⟩ := save_spec hsound.works hkey now entry
    rcases document_spec key hfine.1 hfine.2 with ⟨-, bytes, hbytes, hanswer⟩ | ⟨hnot, -⟩
    · rw [hbytes] at hsave hdocuments
      dsimp only at hdocuments
      refine ⟨d', hsave, hsound.after hworks fun other hother => ?_, fun other hother hapart => ?_⟩
      · -- a root with the digest of the key but another path finds a document that is not its own, and so none
        rw [hdocuments other hother]
        split_ifs
        · exact .inr ⟨_, hanswer dir other⟩
        · exact .inl rfl
      · have hown : answer dir key (documentAt dir key d') = .ok (some entry) := by
          rw [hdocuments key hkey, if_pos rfl, hanswer dir key, if_pos rfl]
        exact contents_after hsound.works hworks hown
          (fun other hother hne => (hdocuments other hother).trans (if_neg hne)) hother hapart
    · exact absurd hwritable hnot
  refuse now key entry d hkey hsound hfine hrefused := by
    obtain ⟨d', hsave, hworks, hdocuments⟩ := save_spec hsound.works hkey now entry
    rcases document_spec key hfine.1 hfine.2 with ⟨hwritable, -⟩ | ⟨-, fault, hfault⟩
    · exact absurd hwritable hrefused
    · rw [hfault] at hsave hdocuments
      dsimp only at hdocuments
      exact ⟨fault, d', hsave, hsound.after hworks fun other hother => .inl (hdocuments other hother),
        fun other hother => contents_congr hsound.works hworks hother (hdocuments other hother)⟩
  delete now key d hkey hsound := by
    obtain ⟨d', hdelete, hworks, hdocuments⟩ := delete_spec hsound.works hkey
    refine ⟨d', hdelete, hsound.after hworks fun other hother => ?_, fun other hother hapart => ?_⟩
    · rw [hdocuments other hother]
      split_ifs
      · exact .inr ⟨none, rfl⟩
      · exact .inl rfl
    · have hown : answer dir key (documentAt dir key d') = .ok none := by
        rw [hdocuments key hkey, if_pos ⟨hsound.ne_nil, rfl⟩]
        rfl
      exact contents_after hsound.works hworks hown
        (fun other hother hne => (hdocuments other hother).trans (if_neg fun h => hne h.2)) hother hapart

theorem isSound_of_fresh (hlength : dir.bytes.length + 70 < Disk.pathLimit) (hfresh : Disk.Fresh dir d) :
    IsSound dir d ∧ ∀ key, key.OfRoot → contents dir d key = none := by
  obtain ⟨hworks, hnone⟩ := works_of_fresh hlength hfresh
  have hanswer : ∀ key, key.OfRoot → answer dir key (documentAt dir key d) = .ok none := by
    intro key hkey
    rw [hnone key hkey]
    rfl
  refine ⟨⟨hworks, hfresh.plain.2, fun key hkey => ?_⟩, fun key hkey => ?_⟩
  · exact ⟨none, (load_eq hworks hkey).trans (hanswer key hkey)⟩
  · exact contents_of_answer hworks hkey (hanswer key hkey)

end DirectoryStore

namespace Store

/-- Requests about two roots: one of the entries depends on a path that is no text. -/
def drill : List Request :=
  let first := CacheKey.ofRoot (.ofString "/") (.ofString "main.less")
  let second := CacheKey.ofRoot (.ofString "/") (.ofString "print.less")
  let entry := CacheEntry.ofList (.ofString "main.less") (.modified 1700000000 42)
    [(.ofString "a \"b\".less", .content (.ofBytes []))]
  let refused := CacheEntry.ofList (.ofString "main.less") (.modified 1700000001 0) [(⟨[0xff]⟩, .modified 0 0)]
  [⟨"2026-10-19T08:00:00Z", first, .save entry⟩, ⟨"2026-10-19T08:00:01Z", first, .save refused⟩,
    ⟨"2026-10-19T08:00:02Z", second, .delete⟩, ⟨"2026-10-19T08:00:03Z", first, .load⟩,
    ⟨"2026-10-19T08:00:04Z", first, .delete⟩, ⟨"2026-10-19T08:00:05Z", first, .load⟩]

end Store

end StyleTrack
