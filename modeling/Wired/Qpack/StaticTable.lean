import Wired.Qpack.DynTable

/-!
# The static table

`static_table.c`: the 99 entries of RFC 9204, Appendix A, in their normative order.
-/

namespace Wired.Qpack

/-- The bytes of a C string of the table, all of them ASCII. -/
def cstr (s : String) : List UInt8 := s.toList.map fun c => UInt8.ofNat c.toNat

def staticEntry (name value : String) : Field where
  name := cstr name
  value := cstr value

def staticTable : List Field := [
  staticEntry ":authority" "",
  staticEntry ":path" "/",
  staticEntry "age" "0",
  staticEntry "content-disposition" "",
  staticEntry "content-length" "0",
  staticEntry "cookie" "",
  staticEntry "date" "",
  staticEntry "etag" "",
  staticEntry "if-modified-since" "",
  staticEntry "if-none-match" "",
  staticEntry "last-modified" "",
  staticEntry "link" "",
  staticEntry "location" "",
  staticEntry "referer" "",
  staticEntry "set-cookie" "",
  staticEntry ":method" "CONNECT",
  staticEntry ":method" "DELETE",
  staticEntry ":method" "GET",
  staticEntry ":method" "HEAD",
  staticEntry ":method" "OPTIONS",
  staticEntry ":method" "POST",
  staticEntry ":method" "PUT",
  staticEntry ":scheme" "http",
  staticEntry ":scheme" "https",
  staticEntry ":status" "103",
  staticEntry ":status" "200",
  staticEntry ":status" "304",
  staticEntry ":status" "404",
  staticEntry ":status" "503",
  staticEntry "accept" "*/*",
  staticEntry "accept" "application/dns-message",
  staticEntry "accept-encoding" "gzip, deflate, br",
  staticEntry "accept-ranges" "bytes",
  staticEntry "access-control-allow-headers" "cache-control",
  staticEntry "access-control-allow-headers" "content-type",
  staticEntry "access-control-allow-origin" "*",
  staticEntry "cache-control" "max-age=0",
  staticEntry "cache-control" "max-age=2592000",
  staticEntry "cache-control" "max-age=604800",
  staticEntry "cache-control" "no-cache",
  staticEntry "cache-control" "no-store",
  staticEntry "cache-control" "public, max-age=31536000",
  staticEntry "content-encoding" "br",
  staticEntry "content-encoding" "gzip",
  staticEntry "content-type" "application/dns-message",
  staticEntry "content-type" "application/javascript",
  staticEntry "content-type" "application/json",
  staticEntry "content-type" "application/x-www-form-urlencoded",
  staticEntry "content-type" "image/gif",
  staticEntry "content-type" "image/jpeg",
  staticEntry "content-type" "image/png",
  staticEntry "content-type" "text/css",
  staticEntry "content-type" "text/html; charset=utf-8",
  staticEntry "content-type" "text/plain",
  staticEntry "content-type" "text/plain;charset=utf-8",
  staticEntry "range" "bytes=0-",
  staticEntry "strict-transport-security" "max-age=31536000",
  staticEntry "strict-transport-security" "max-age=31536000; includesubdomains",
  staticEntry "strict-transport-security" "max-age=31536000; includesubdomains; preload",
  staticEntry "vary" "accept-encoding",
  staticEntry "vary" "origin",
  staticEntry "x-content-type-options" "nosniff",
  staticEntry "x-xss-protection" "1; mode=block",
  staticEntry ":status" "100",
  staticEntry ":status" "204",
  staticEntry ":status" "206",
  staticEntry ":status" "302",
  staticEntry ":status" "400",
  staticEntry ":status" "403",
  staticEntry ":status" "421",
  staticEntry ":status" "425",
  staticEntry ":status" "500",
  staticEntry "accept-language" "",
  staticEntry "access-control-allow-credentials" "FALSE",
  staticEntry "access-control-allow-credentials" "TRUE",
  staticEntry "access-control-allow-headers" "*",
  staticEntry "access-control-allow-methods" "get",
  staticEntry "access-control-allow-methods" "get, post, options",
  staticEntry "access-control-allow-methods" "options",
  staticEntry "access-control-expose-headers" "content-length",
  staticEntry "access-control-request-headers" "content-type",
  staticEntry "access-control-request-method" "get",
  staticEntry "access-control-request-method" "post",
  staticEntry "alt-svc" "clear",
  staticEntry "authorization" "",
  staticEntry "content-security-policy" "script-src 'none'; object-src 'none'; base-uri 'none'",
  staticEntry "early-data" "1",
  staticEntry "expect-ct" "",
  staticEntry "forwarded" "",
  staticEntry "if-range" "",
  staticEntry "origin" "",
  staticEntry "purpose" "prefetch",
  staticEntry "server" "",
  staticEntry "timing-allow-origin" "*",
  staticEntry "upgrade-insecure-requests" "1",
  staticEntry "user-agent" "",
  staticEntry "x-forwarded-for" "",
  staticEntry "x-frame-options" "deny",
  staticEntry "x-frame-options" "sameorigin"]

def qpackStaticGet (index : Nat) : Option Field := staticTable[index]?

def qpackStaticFind (f : Field) : Option Nat := staticTable.findIdx? (· = f)

theorem qpackStaticGet_find {f : Field} {i : Nat} (h : qpackStaticFind f = some i) :
    qpackStaticGet i = some f := by
  obtain ⟨hlt, hf, -⟩ := List.findIdx?_eq_some_iff_getElem.mp h
  rw [qpackStaticGet, List.getElem?_eq_getElem hlt]
  exact congrArg some (by simpa using hf)

end Wired.Qpack
