import CriptoParser.HexText
import CriptoParser.PythonValues
import CriptoParser.SqlColumns
import CriptoParser.SqlTables

/-!
Passwords as the gateway stores them, `algorithm$iterations$salt$digest`, and the user it makes
at its first start. The derivation of the digest is the library's.
-/

set_option autoImplicit false

namespace CriptoParser

/-- `hashlib.pbkdf2_hmac("sha256", ...)`: the password, the salt and the iterations. -/
structure Pbkdf2 where
  digest : String → List UInt8 → ℕ → List UInt8
  size : ∀ password salt iterations, (digest password salt iterations).length = 32

def pbkdf2Iterations : ℕ := 200000

def bytesFromHex (s : List Char) : Except PyExc (List UInt8) :=
  match Hex.decode s with
  | some bytes => .ok bytes
  | none => .error .valueError

namespace Pbkdf2

/-- `pbkdf2_hmac` refuses a count below one or beyond a C integer. -/
def hmac (lib : Pbkdf2) (password : String) (salt : List UInt8) (iterations : ℤ) :
    Except PyExc (List UInt8) :=
  if iterations < 1 then .error .valueError
  else if 2 ^ 31 ≤ iterations then .error .overflowError
  else .ok (lib.digest password salt iterations.toNat)

end Pbkdf2

def compareDigest (a b : List Char) : Except PyExc Bool :=
  if a.all (·.toNat < 128) && b.all (·.toNat < 128) then .ok (a == b) else .error .typeError

section
variable (lib : Pbkdf2)

/-- `hash_password`; `salt` are the bytes of `secrets.token_hex(16)`. -/
def hashPassword (password : String) (salt : List UInt8) : Except PyExc String := do
  let digest ← lib.hmac password (← bytesFromHex (Hex.encode salt)) pbkdf2Iterations
  .ok (.ofList (['$'].intercalate ["pbkdf2_sha256".toList, pbkdf2Iterations.repr.toList,
    Hex.encode salt, Hex.encode digest]))

variable [PyText]

def verifyParts (password : String) : List (List Char) → Except PyExc Bool
  | [_, iterations, salt, expected] => do
    let salt ← bytesFromHex salt
    match PyText.intStr (.ofList iterations) with
    | none => .error .valueError
    | some n => compareDigest (Hex.encode (← lib.hmac password salt n)) expected
  | _ => .error .valueError

/-- `verify_password`: `except (ValueError, AttributeError)`. -/
def verifyPassword (password stored : String) : Except PyExc Bool :=
  match verifyParts lib password (stored.toList.splitOn '$') with
  | .error .valueError | .error .attributeError => .ok false
  | r => r

end

structure UserRow where
  email : String
  passwordHash : String
  isActive : Bool
  isAdmin : Bool
  deriving DecidableEq, Repr

abbrev Users := Sql.Table UserRow.email

/-- `INSERT INTO users`: the texts fit and the address is new, or it raises. -/
def Users.insert (users : Users) (row : UserRow) : Except PyExc Users :=
  if h : row.email ∉ users.rows.map UserRow.email then
    .ok ⟨users.rows ++ [row], by simpa using List.Nodup.concat h users.unique⟩
  else .error (.callFailed false)

def createUser (email passwordHash : String) (isAdmin : Bool) (users : Users) :
    Except PyExc Users :=
  if Sql.fitsVarchar 255 email && Sql.fitsVarchar 255 passwordHash then
    users.insert ⟨Sql.storedVarchar 255 email, Sql.storedVarchar 255 passwordHash, true, isAdmin⟩
  else .error (.callFailed false)

def ensureDefaultUser (lib : Pbkdf2) (email password : String) (salt : List UInt8)
    (users : Users) : Except PyExc Users :=
  if email ∈ users.rows.map UserRow.email then .ok users
  else do createUser email (← hashPassword lib password salt) true users

/-- `SELECT email, password_hash FROM users WHERE email = $1 AND is_active = true`. -/
def Users.active (users : Users) (email : String) : Option UserRow :=
  users.rows.find? fun r => r.email == email && r.isActive

section
variable {lib : Pbkdf2}

theorem pbkdf2_hmac (password : String) (salt : List UInt8) :
    lib.hmac password salt pbkdf2Iterations = .ok (lib.digest password salt pbkdf2Iterations) := by
  unfold Pbkdf2.hmac
  rw [if_neg (by decide), if_neg (by decide)]
  rfl

theorem bytesFromHex_encode (bytes : List UInt8) :
    bytesFromHex (Hex.encode bytes) = .ok bytes := by
  rw [bytesFromHex, Hex.decode_encode]

theorem hashPassword_ok (password : String) (salt : List UInt8) :
    hashPassword lib password salt = .ok (.ofList (['$'].intercalate
      ["pbkdf2_sha256".toList, pbkdf2Iterations.repr.toList, Hex.encode salt,
        Hex.encode (lib.digest password salt pbkdf2Iterations)])) := by
  simp only [hashPassword, bytesFromHex_encode, pbkdf2_hmac, bind, Except.bind]

theorem splitOn_hash (salt digest : List UInt8) :
    (['$'].intercalate ["pbkdf2_sha256".toList, pbkdf2Iterations.repr.toList, Hex.encode salt,
        Hex.encode digest]).splitOn '$' =
      ["pbkdf2_sha256".toList, pbkdf2Iterations.repr.toList, Hex.encode salt,
        Hex.encode digest] := by
  have hhex : ∀ bytes, '$' ∉ Hex.encode bytes := fun bytes h =>
    absurd (Hex.encode_letters _ h) (by decide)
  apply List.splitOn_intercalate
  · simp only [List.mem_cons, List.not_mem_nil, or_false]
    rintro part (rfl | rfl | rfl | rfl)
    · decide
    · decide
    · exact hhex salt
    · exact hhex digest
  · exact List.cons_ne_nil _ _

theorem encode_ascii (bytes : List UInt8) : (Hex.encode bytes).all (·.toNat < 128) = true := by
  rw [List.all_eq_true]
  intro c hc
  have hletters : Hex.letters.all (·.toNat < 128) = true := by decide
  exact List.all_eq_true.mp hletters c (Hex.encode_letters c hc)

theorem compareDigest_encode (xs ys : List UInt8) :
    compareDigest (Hex.encode xs) (Hex.encode ys) = .ok (decide (xs = ys)) := by
  rw [compareDigest, encode_ascii, encode_ascii, Bool.and_self, if_pos rfl]
  by_cases h : xs = ys
  · rw [h]
    simp
  · have hne : Hex.encode xs ≠ Hex.encode ys := fun he => h (Hex.encode_inj he)
    rw [decide_eq_false h, beq_eq_false_iff_ne.mpr hne]

theorem verify_hash [PyText]
    (hint : PyText.intStr pbkdf2Iterations.repr = some (pbkdf2Iterations : ℤ))
    {password stored : String} {salt : List UInt8}
    (h : hashPassword lib password salt = .ok stored) (other : String) :
    verifyPassword lib other stored = .ok (decide (lib.digest other salt pbkdf2Iterations =
      lib.digest password salt pbkdf2Iterations)) := by
  rw [hashPassword_ok] at h
  cases h
  have hparts : verifyParts lib other ["pbkdf2_sha256".toList, pbkdf2Iterations.repr.toList,
      Hex.encode salt, Hex.encode (lib.digest password salt pbkdf2Iterations)] =
      .ok (decide (lib.digest other salt pbkdf2Iterations =
        lib.digest password salt pbkdf2Iterations)) := by
    simp only [verifyParts, bytesFromHex_encode, bind, Except.bind, String.ofList_toList, hint,
      pbkdf2_hmac, compareDigest_encode]
  unfold verifyPassword
  rw [String.toList_ofList, splitOn_hash, hparts]

theorem hash_stored (password : String) {salt : List UInt8} (hsalt : salt.length = 16)
    {stored : String} (h : hashPassword lib password salt = .ok stored) :
    Sql.fitsVarchar 255 stored = true ∧ Sql.storedVarchar 255 stored = stored := by
  rw [hashPassword_ok] at h
  cases h
  have hlength : (['$'].intercalate ["pbkdf2_sha256".toList, pbkdf2Iterations.repr.toList,
      Hex.encode salt, Hex.encode (lib.digest password salt pbkdf2Iterations)]).length = 118 := by
    simp only [List.intercalate, List.intersperse, List.flatten_cons, List.flatten_nil,
      List.length_append, Hex.encode_length, hsalt, lib.size]
    decide
  have hnul : Char.ofNat 0 ∉ ['$'].intercalate ["pbkdf2_sha256".toList,
      pbkdf2Iterations.repr.toList, Hex.encode salt,
      Hex.encode (lib.digest password salt pbkdf2Iterations)] := by
    have hhex : ∀ bytes, Char.ofNat 0 ∉ Hex.encode bytes := fun bytes hc =>
      absurd (Hex.encode_letters _ hc) (by decide)
    simp only [List.intercalate, List.intersperse, List.flatten_cons, List.flatten_nil,
      List.mem_append, not_or]
    exact ⟨by decide, by decide, by decide, by decide, hhex _, by decide, hhex _, by decide⟩
  constructor
  · rw [Sql.fitsVarchar, String.toList_ofList, List.drop_eq_nil_of_le (by omega)]
    simpa using hnul
  · rw [Sql.storedVarchar, String.toList_ofList, List.take_of_length_le (by omega)]

/-- A first start makes the default user, who enters with the passwords that have the digest of
the default one and no others; the users there were stay, and no later start changes anything,
whatever its default password is. -/
theorem default_user_enters [PyText]
    (hint : PyText.intStr pbkdf2Iterations.repr = some (pbkdf2Iterations : ℤ))
    (email password : String) (salt : List UInt8) (users : Users) (hsalt : salt.length = 16)
    (hnew : email ∉ users.rows.map UserRow.email) (hlength : email.toList.length ≤ 255)
    (hnul : Char.ofNat 0 ∉ email.toList) :
    ∃ users' row, ensureDefaultUser lib email password salt users = .ok users' ∧
      users'.active email = some row ∧ row.email = email ∧
      (∀ other, verifyPassword lib other row.passwordHash =
        .ok (decide (lib.digest other salt pbkdf2Iterations =
          lib.digest password salt pbkdf2Iterations))) ∧
      (∀ r ∈ users.rows, r ∈ users'.rows) ∧
      ∀ password' salt', ensureDefaultUser lib email password' salt' users' = .ok users' := by
  have hhash := @hashPassword_ok lib password salt
  generalize String.ofList _ = stored at hhash
  obtain ⟨hfits, hstored⟩ := hash_stored password hsalt hhash
  have hemail : Sql.fitsVarchar 255 email = true := by
    rw [Sql.fitsVarchar, List.drop_eq_nil_of_le hlength]
    simpa using hnul
  have hkept : Sql.storedVarchar 255 email = email := by
    rw [Sql.storedVarchar, List.take_of_length_le hlength, String.ofList_toList]
  have hensure : ensureDefaultUser lib email password salt users =
      .ok ⟨users.rows ++ [⟨email, stored, true, true⟩],
        by simpa using List.Nodup.concat hnew users.unique⟩ := by
    rw [ensureDefaultUser, if_neg hnew, hhash]
    simp only [bind, Except.bind, createUser, hemail, hfits, Bool.and_self, if_true, hkept,
      hstored, Users.insert]
    rw [dif_pos hnew]
  refine ⟨_, ⟨email, stored, true, true⟩, hensure, ?_, rfl, verify_hash hint hhash, ?_, ?_⟩
  · have hnone : users.rows.find? (fun r => r.email == email && r.isActive) = none := by
      rw [List.find?_eq_none]
      intro r hr hfound
      have he : r.email = email := by simpa using ((Bool.and_eq_true _ _).mp hfound).1
      exact hnew (List.mem_map.mpr ⟨r, hr, he⟩)
    simp [Users.active, List.find?_append, hnone]
  · intro r hr
    exact List.mem_append_left _ hr
  · intro password' salt'
    rw [ensureDefaultUser, if_pos (by simp)]

def fillUp (password : String) (salt : List UInt8) (_ : ℕ) : List UInt8 :=
  (password.toUTF8.toList ++ salt ++ List.replicate 32 0).take 32

theorem fillUp_size (password : String) (salt : List UInt8) (iterations : ℕ) :
    (fillUp password salt iterations).length = 32 := by
  simp only [fillUp, List.length_take, List.length_append, List.length_replicate]
  omega

def paddedPbkdf2 : Pbkdf2 := ⟨fillUp, fillUp_size⟩

def twoUsers : Users :=
  ⟨[⟨"ann@example.com", "pbkdf2_sha256$1$00$00", true, false⟩,
    ⟨"bob@example.com", "pbkdf2_sha256$1$00$00", false, false⟩], by decide⟩

theorem default_user_enters_test :
    ∃ users' row, ensureDefaultUser paddedPbkdf2 "test@example.com" "test123"
        (List.replicate 16 7) twoUsers = .ok users' ∧
      users'.active "test@example.com" = some row ∧
      @verifyPassword paddedPbkdf2 plainText "test123" row.passwordHash = .ok true ∧
      @verifyPassword paddedPbkdf2 plainText "test124" row.passwordHash = .ok false ∧
      (∀ r ∈ twoUsers.rows, r ∈ users'.rows) ∧
      ensureDefaultUser paddedPbkdf2 "test@example.com" "other" (List.replicate 16 8) users' =
        .ok users' := by
  obtain ⟨users', row, hstart, hactive, -, hverify, hkept, hlater⟩ :=
    @default_user_enters paddedPbkdf2 plainText (by decide +kernel) "test@example.com" "test123"
      (List.replicate 16 7) twoUsers (by decide) (by decide) (by decide) (by decide)
  refine ⟨users', row, hstart, hactive, ?_, ?_, hkept, hlater "other" (List.replicate 16 8)⟩
  · rw [hverify, decide_eq_true rfl]
  · rw [hverify, decide_eq_false (by decide +kernel)]

end

end CriptoParser
